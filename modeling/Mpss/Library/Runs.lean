import Mathlib.Data.List.Basic

namespace Mpss.Library.Runs
open Option

/-- Take the labelled steps one after the other; a step that is not enabled has no result. -/
def exec (step : σ → ι → Option σ) : σ → List ι → Option σ
  | s,[] => some s
  | s,a :: as => (step s a).bind (fun t => exec step t as)

/-- Every step of the run is taken in a state where `ok` allows it. -/
def Along (step : σ → ι → Option σ) (ok : σ → ι → Prop) : σ → List ι → Prop
  | _,[] => True
  | s,a :: as => ok s a ∧ ∀ t,step s a = some t → Along step ok t as

variable {step : σ → ι → Option σ} {ok : σ → ι → Prop} {Inv : σ → Prop}

instance decidableAlong [∀ s a,Decidable (ok s a)] : ∀ s as,Decidable (Along step ok s as)
  | _,[] => .isTrue trivial
  | s,a :: as =>
    match h : step s a with
    | none => decidable_of_iff (ok s a) ⟨fun ho => ⟨ho,by simp [h]⟩,And.left⟩
    | some t =>
      haveI : Decidable (Along step ok t as) := decidableAlong t as
      decidable_of_iff (ok s a ∧ Along step ok t as)
        ⟨fun ⟨ho,hr⟩ => ⟨ho,fun u hu => by cases h.symm.trans hu; exact hr⟩,fun ⟨ho,hr⟩ => ⟨ho,hr t h⟩⟩

theorem of_guard [Decidable c] (h : (if c then some s else none) = some t) (hi : c → Inv s) :
    Inv t := by
  obtain ⟨hc,h⟩ := ite_none_right_eq_some.mp h
  cases h
  exact hi hc

theorem of_unless [Decidable c] (h : (if c then none else some s) = some t) (hi : ¬ c → Inv s) :
    Inv t := by
  obtain ⟨hc,h⟩ := ite_none_left_eq_some.mp h
  cases h
  exact hi hc

theorem exec_cons (h : exec step s (a :: as) = some u) :
    ∃ t,step s a = some t ∧ exec step t as = some u :=
  bind_eq_some_iff.mp h

theorem exec_append (h : exec step s as = some t) : exec step s (as ++ bs) = exec step t bs := by
  induction as generalizing s with
  | nil =>
    cases h
    rfl
  | cons a as ih =>
    obtain ⟨u,hu,hr⟩ := exec_cons h
    simp only [List.cons_append,exec,hu,bind_some]
    exact ih hr

theorem Along.always (h : ∀ s a,ok s a) (s : σ) (as : List ι) : Along step ok s as := by
  induction as generalizing s with
  | nil => trivial
  | cons a as ih => exact ⟨h s a,fun t _ => ih t⟩

theorem Along.cons (h : ok s a) (hs : step s a = some t) (hr : Along step ok t as) :
    Along step ok s (a :: as) := by
  refine ⟨h,?_⟩
  intro u hu
  rw [hs] at hu
  exact some.inj hu ▸ hr

theorem Along.append (ha : Along step ok s as) (he : exec step s as = some t)
    (hb : Along step ok t bs) : Along step ok s (as ++ bs) := by
  induction as generalizing s with
  | nil =>
    cases he
    exact hb
  | cons a as ih =>
    obtain ⟨u,hu,hr⟩ := exec_cons he
    exact Along.cons ha.1 hu (ih (ha.2 u hu) hr)

theorem Along.split (h : Along step ok s (as ++ bs)) (he : exec step s as = some t) :
    Along step ok s as ∧ Along step ok t bs := by
  induction as generalizing s with
  | nil =>
    cases he
    exact ⟨trivial,h⟩
  | cons a as ih =>
    obtain ⟨u,hu,hr⟩ := exec_cons he
    refine ⟨⟨h.1,?_⟩,(ih (h.2 u hu) hr).2⟩
    intro v hv
    rw [hu] at hv
    cases hv
    exact (ih (h.2 u hu) hr).1

/-- What every allowed step preserves holds after every allowed run. -/
theorem exec_invariant
    (preserve : ∀ s a t,Inv s → ok s a → step s a = some t → Inv t)
    (hs : Inv s) (ha : Along step ok s as) (he : exec step s as = some t) : Inv t := by
  induction as generalizing s with
  | nil => exact some.inj he ▸ hs
  | cons a as ih =>
    obtain ⟨u,hu,hr⟩ := exec_cons he
    exact ih (preserve s a u hs ha.1 hu) (ha.2 u hu) hr

/-- A run whose steps are allowed goes to its end when no allowed step is stuck. -/
theorem exec_total (preserve : ∀ s a t,Inv s → ok s a → step s a = some t → Inv t)
    (go : ∀ s a,Inv s → ok s a → ∃ t,step s a = some t) (hs : Inv s) (ha : Along step ok s as) :
    ∃ t,exec step s as = some t ∧ Inv t := by
  induction as generalizing s with
  | nil => exact ⟨s,rfl,hs⟩
  | cons a as ih =>
    obtain ⟨u,hu⟩ := go s a hs ha.1
    obtain ⟨t,ht,hi⟩ := ih (preserve s a u hs ha.1 hu) (ha.2 u hu)
    refine ⟨t,?_,hi⟩
    rw [exec,hu,bind_some,ht]

end Mpss.Library.Runs
