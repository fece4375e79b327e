import Mathlib.Algebra.Order.Ring.Int
import Mathlib.Data.List.Pairwise

namespace Mpss.Library.Extents
open List
open Option hiding or_assoc

structure Extent where
  base : Nat
  range : Nat
deriving DecidableEq

variable (e : Extent)

def Extent.stop : Nat := e.base + e.range

def Extent.Has (x : Nat) : Prop := e.base ≤ x ∧ x < e.stop

/-- The overlap test, by which of the two starts first. -/
def Extent.Meets (f e : Extent) : Prop :=
  if f.base < e.base then e.base < f.stop else f.base < e.stop
deriving Decidable

def Covered (l : List Extent) (x : Nat) : Prop := ∃ e ∈ l,e.Has x

/-- Non-empty extents in order, with a gap behind each. -/
def Tidy (l : List Extent) : Prop := (∀ e ∈ l,0 < e.range) ∧ l.Pairwise (fun a b => a.stop < b.base)

/-- Put an extent before those behind it, merging with the first if they touch. -/
def join : List Extent → List Extent
  | [] => [e]
  | f :: rest => if f.base = e.stop then ⟨e.base,e.range + f.range⟩ :: rest else e :: f :: rest

/-- Add an extent, merging it with its neighbours. An overlap is only found with the extents before
its place. -/
def coalesce : List Extent → Option (List Extent)
  | [] => some [e]
  | f :: rest =>
    if f.Meets e then none
    else if e.stop = f.base then some (⟨e.base,f.range + e.range⟩ :: rest)
    else if f.stop = e.base then some (join ⟨f.base,f.range + e.range⟩ rest)
    else if e.stop < f.base then some (e :: f :: rest)
    else (coalesce rest).map (f :: ·)

/-- Take `n` units from the front of the first extent that is large enough. -/
def take (n : Nat) : List Extent → Option (Nat × List Extent)
  | [] => none
  | f :: rest =>
    if n ≤ f.range then
      some (f.base,if f.range = n then rest else ⟨f.base + n,f.range - n⟩ :: rest)
    else (take n rest).map (fun r => (r.1,f :: r.2))

/-- What is left of an extent without a part of it. -/
def cut (f e : Extent) : List Extent :=
  if f.base = e.base then (if f.range = e.range then [] else [⟨e.stop,f.range - e.range⟩])
  else if f.stop = e.stop then [⟨f.base,f.range - e.range⟩]
  else [⟨f.base,e.base - f.base⟩,⟨e.stop,f.stop - e.stop⟩]

variable {e f : Extent}

@[simp] theorem covered_nil : ¬ Covered [] x := by simp [Covered]

@[simp] theorem covered_cons : Covered (f :: l) x ↔ f.Has x ∨ Covered l x := by simp [Covered]

@[simp] theorem covered_append : Covered (l ++ l') x ↔ Covered l x ∨ Covered l' x := by
  simp [Covered,or_and_right,exists_or]

@[simp] theorem tidy_nil : Tidy [] := by simp [Tidy]

theorem tidy_cons : Tidy (f :: l) ↔ 0 < f.range ∧ (∀ g ∈ l,f.stop < g.base) ∧ Tidy l := by
  simp only [Tidy,forall_mem_cons,pairwise_cons]
  tauto

theorem covered_join : Covered (join e l) x ↔ e.Has x ∨ Covered l x := by
  cases l with
  | nil => simp [join]
  | cons f l =>
    simp only [join]
    split
    · simp only [covered_cons,← or_assoc]
      refine or_congr_left ?_
      simp only [Extent.Has,Extent.stop] at *
      omega
    · simp

theorem join_base (h : g ∈ join e l) : g.base = e.base ∨ g ∈ l := by
  cases l with
  | nil =>
    rw [join,mem_singleton] at h
    exact .inl (h ▸ rfl)
  | cons f l =>
    simp only [join] at h
    split at h
    · rcases mem_cons.mp h with rfl | h
      · exact .inl rfl
      · exact .inr (.tail f h)
    · rcases mem_cons.mp h with rfl | h
      · exact .inl rfl
      · exact .inr h

theorem coalesce_cons (h : coalesce e (f :: rest) = some l') : ¬ f.Meets e ∧
    (e.stop = f.base ∧ l' = ⟨e.base,f.range + e.range⟩ :: rest ∨
      f.stop = e.base ∧ l' = join ⟨f.base,f.range + e.range⟩ rest ∨
      e.stop < f.base ∧ l' = e :: f :: rest ∨
      f.stop < e.base ∧ ∃ m,coalesce e rest = some m ∧ l' = f :: m) := by
  obtain ⟨hm,h⟩ := ite_none_left_eq_some.mp h
  refine ⟨hm,?_⟩
  split at h
  · rename_i hb
    exact .inl ⟨hb,(Option.some.inj h).symm⟩
  split at h
  · rename_i hb
    exact .inr (.inl ⟨hb,(Option.some.inj h).symm⟩)
  split_ifs at h with hb
  · exact .inr (.inr (.inl ⟨hb,(Option.some.inj h).symm⟩))
  · obtain ⟨m,hi,rfl⟩ := map_eq_some_iff.mp h
    refine .inr (.inr (.inr ⟨?_,m,hi,rfl⟩))
    simp only [Extent.Meets] at hm
    split at hm <;> omega

/-- Inserting moves nothing below the lowest base. -/
theorem coalesce_base (h : coalesce e l = some l') (hg : g ∈ l') :
    e.base ≤ g.base ∨ ∃ f ∈ l,f.base ≤ g.base := by
  induction l generalizing l' with
  | nil =>
    cases h
    rw [mem_singleton.mp hg]
    exact .inl le_rfl
  | cons f rest ih =>
    have hr : g ∈ rest → ∃ k ∈ f :: rest,k.base ≤ g.base := fun hm => ⟨g,.tail f hm,le_rfl⟩
    obtain ⟨_,⟨_,rfl⟩ | ⟨_,rfl⟩ | ⟨_,rfl⟩ | ⟨_,m,hm,rfl⟩⟩ := coalesce_cons h
    · rcases mem_cons.mp hg with rfl | hg
      · exact .inl le_rfl
      · exact .inr (hr hg)
    · rcases join_base hg with hb | hg
      · exact .inr ⟨f,mem_cons_self,le_of_eq hb.symm⟩
      · exact .inr (hr hg)
    · rcases mem_cons.mp hg with rfl | hg
      · exact .inl le_rfl
      · exact .inr ⟨g,hg,le_rfl⟩
    · rcases mem_cons.mp hg with rfl | hg
      · exact .inr ⟨g,mem_cons_self,le_rfl⟩
      · rcases ih hm hg with hb | ⟨k,hk,hb⟩
        · exact .inl hb
        · exact .inr ⟨k,.tail f hk,hb⟩

section
variable (he : 0 < e.range)
include he

theorem tidy_join (ht : Tidy l) (hl : ∀ g ∈ l,e.stop ≤ g.base) : Tidy (join e l) := by
  cases l with
  | nil => simp [join,tidy_cons,he]
  | cons f l =>
    obtain ⟨hf,hfl,ht⟩ := tidy_cons.mp ht
    have hef := hl f mem_cons_self
    simp only [join]
    split
    · refine tidy_cons.mpr ⟨Nat.add_pos_left he _,?_,ht⟩
      intro g hg
      have := hfl g hg
      simp only [Extent.stop] at *
      omega
    refine tidy_cons.mpr ⟨he,?_,tidy_cons.mpr ⟨hf,hfl,ht⟩⟩
    intro g hg
    rcases mem_cons.mp hg with rfl | hg
    · omega
    · have := hfl g hg
      simp only [Extent.stop] at *
      omega

theorem meets_iff (hf : 0 < f.range) : f.Meets e ↔ ∃ x,f.Has x ∧ e.Has x := by
  simp only [Extent.Meets,Extent.Has,Extent.stop]
  constructor
  · intro h
    refine ⟨max f.base e.base,?_⟩
    split at h <;> omega
  · rintro ⟨x,hx,hy⟩
    split <;> omega

/-- Non-empty extents without a common point lie one behind the other. -/
theorem apart_of_disjoint (hf : 0 < f.range) (h : ∀ x,e.Has x → ¬ f.Has x) :
    e.stop ≤ f.base ∨ f.stop ≤ e.base := by
  have h1 := h e.base
  have h2 := h f.base
  simp only [Extent.Has,Extent.stop] at *
  omega

/-- An extent that overlaps nothing is added, and the list stays tidy. -/
theorem coalesce_disjoint (ht : Tidy l) (hd : ∀ x,e.Has x → ¬ Covered l x) :
    ∃ l',coalesce e l = some l' ∧ Tidy l' ∧ ∀ x,Covered l' x ↔ Covered l x ∨ e.Has x := by
  induction l with
  | nil => exact ⟨[e],rfl,tidy_cons.mpr ⟨he,by simp,tidy_nil⟩,by simp⟩
  | cons f rest ih =>
    obtain ⟨hf,hrs,hr⟩ := tidy_cons.mp ht
    have hm : ¬ f.Meets e := by
      rw [meets_iff he hf]
      rintro ⟨x,hfx,hex⟩
      exact hd x hex (covered_cons.mpr (.inl hfx))
    have hn : ∀ g ∈ rest,e.stop ≤ g.base ∨ g.stop ≤ e.base := fun g hg =>
      apart_of_disjoint he (hr.1 g hg) (fun x hex hgx => hd x hex (covered_cons.mpr (.inr ⟨g,hg,hgx⟩)))
    obtain ⟨m,hi,hmt,hmx⟩ := ih hr (fun x hx hc => hd x hx (covered_cons.mpr (.inr hc)))
    simp only [coalesce,if_neg hm]
    split
    · refine ⟨_,rfl,tidy_cons.mpr ⟨Nat.add_pos_left hf _,?_,hr⟩,?_⟩
      · intro g hg
        have := hrs g hg
        simp only [Extent.stop] at *
        omega
      · intro x
        simp only [covered_cons,Extent.Has,Extent.stop] at *
        by_cases hx : Covered rest x
        · simp [hx]
        · simp only [hx,or_false]
          omega
    · split
      · refine ⟨_,rfl,tidy_join (Nat.add_pos_left hf _) hr ?_,?_⟩
        · intro g hg
          have := hrs g hg
          have := hn g hg
          simp only [Extent.stop] at *
          omega
        · intro x
          simp only [covered_join,covered_cons,Extent.Has,Extent.stop] at *
          by_cases hx : Covered rest x
          · simp [hx]
          · simp only [hx,or_false]
            omega
      · split_ifs with hb
        · refine ⟨_,rfl,tidy_cons.mpr ⟨he,?_,ht⟩,?_⟩
          · intro g hg
            rcases mem_cons.mp hg with rfl | hg
            · exact hb
            · have := hrs g hg
              simp only [Extent.stop] at *
              omega
          · intro x
            rw [covered_cons]
            exact or_comm
        · have hlt : f.stop < e.base := by
            simp only [Extent.Meets] at hm
            split at hm <;> omega
          refine ⟨f :: m,by rw [hi]; rfl,tidy_cons.mpr ⟨hf,?_,hmt⟩,?_⟩
          · intro g hg
            rcases coalesce_base hi hg with hge | ⟨k,hk,hge⟩
            · omega
            · have := hrs k hk
              omega
          · intro x
            simp [covered_cons,hmx,or_assoc]

/-- An overlap is found where no extent ends right at the base. -/
theorem coalesce_overlap (ht : Tidy l) (hx : e.Has x) (hc : Covered l x)
    (hn : ∀ f ∈ l,f.stop ≠ e.base) : coalesce e l = none := by
  induction l with
  | nil => exact absurd hc covered_nil
  | cons f rest ih =>
    obtain ⟨hf,hrs,hr⟩ := tidy_cons.mp ht
    have hne := hn f mem_cons_self
    by_cases hm : f.Meets e
    · rw [coalesce,if_pos hm]
    have hfx : ¬ f.Has x := fun h => hm ((meets_iff he hf).mpr ⟨x,h,hx⟩)
    have hc' : Covered rest x := (covered_cons.mp hc).resolve_left hfx
    have hlt : ¬ e.stop ≤ f.base := by
      obtain ⟨g,hg,hgx⟩ := hc'
      have := hrs g hg
      simp only [Extent.Has,Extent.stop] at *
      omega
    rw [coalesce,if_neg hm,if_neg (by omega),if_neg hne,if_neg (by omega),
      ih hr hc' (forall_mem_cons.mp hn).2]
    rfl

/-- An extent is added just when it overlaps nothing, if no neighbour that ends at its base hides an
overlap. -/
theorem coalesce_iff (ht : Tidy l) (hn : (∃ f ∈ l,f.stop = e.base) → ∀ x,e.Has x → ¬ Covered l x) :
    (∃ l',coalesce e l = some l') ↔ ∀ x,e.Has x → ¬ Covered l x := by
  constructor
  · rintro ⟨l',hl'⟩ x hx hc
    by_cases hnr : ∃ f ∈ l,f.stop = e.base
    · exact hn hnr x hx hc
    · have hnn := coalesce_overlap he ht hx hc (fun f hf hs => hnr ⟨f,hf,hs⟩)
      rw [hnn] at hl'
      cases hl'
  · intro hd
    obtain ⟨l',hl',_⟩ := coalesce_disjoint he ht hd
    exact ⟨l',hl'⟩

end

theorem take_none : take n l = none ↔ ∀ f ∈ l,f.range < n := by
  induction l with
  | nil => simp [take]
  | cons f rest ih =>
    simp only [take,forall_mem_cons]
    split
    · simp only [reduceCtorEq,false_iff]
      omega
    · rw [map_eq_none_iff,ih]
      simp only [iff_and_self]
      omega

/-- Extents that cover no more than those behind a gap lie behind the gap. -/
theorem Tidy.behind (hm : Tidy m) (hs : ∀ x,Covered m x → Covered rest x)
    (h : ∀ g ∈ rest,k < g.base) : ∀ g ∈ m,k < g.base := by
  intro g hg
  have hp := hm.1 g hg
  obtain ⟨j,hj,hjx⟩ := hs g.base ⟨g,hg,le_rfl,Nat.lt_add_of_pos_right hp⟩
  have := h j hj
  have := hjx.1
  omega

theorem Tidy.head_only (ht : Tidy (f :: rest)) (hx : f.Has x) : ¬ Covered rest x := by
  rintro ⟨g,hg,hgx⟩
  have := (tidy_cons.mp ht).2.1 g hg
  simp only [Extent.Has,Extent.stop] at *
  omega

/-- What is taken was covered and no longer is; the list stays tidy. -/
theorem take_some (hn : 0 < n) (ht : Tidy l) (h : take n l = some (b,l')) :
    Tidy l' ∧ (∀ x,Covered l' x ↔ Covered l x ∧ ¬ (Extent.mk b n).Has x) ∧
      ∀ x,(Extent.mk b n).Has x → Covered l x := by
  induction l generalizing l' with
  | nil => cases h
  | cons f rest ih =>
    obtain ⟨hf,hrs,hr⟩ := tidy_cons.mp ht
    simp only [take] at h
    split at h
    · obtain ⟨rfl,rfl⟩ := Prod.mk.inj (Option.some.inj h)
      refine ⟨?_,?_,?_⟩
      · split
        · exact hr
        refine tidy_cons.mpr ⟨by simp only; omega,?_,hr⟩
        intro g hg
        have := hrs g hg
        simp only [Extent.stop] at *
        omega
      · intro x
        have ho := ht.head_only (x := x)
        split
        all_goals
          simp only [covered_cons,Extent.Has,Extent.stop] at *
          by_cases hx : Covered rest x
          · simp only [hx,or_true,true_and,true_iff]
            intro h'
            exact ho (by omega) hx
          · simp only [hx,or_false,false_iff]
            omega
      · intro x hx
        refine covered_cons.mpr (.inl ?_)
        simp only [Extent.Has,Extent.stop] at *
        omega
    · obtain ⟨⟨b',m⟩,hm,hr'⟩ := map_eq_some_iff.mp h
      obtain ⟨rfl,rfl⟩ := Prod.mk.inj hr'
      obtain ⟨hmt,hmx,hmb⟩ := ih hr hm
      refine ⟨tidy_cons.mpr ⟨hf,?_,hmt⟩,?_,?_⟩
      · exact hmt.behind (fun x hx => ((hmx x).mp hx).1) hrs
      · intro x
        simp only [covered_cons,hmx]
        constructor
        · rintro (hx | hx)
          · exact ⟨.inl hx,fun hb => ht.head_only hx (hmb x hb)⟩
          · exact ⟨.inr hx.1,hx.2⟩
        · rintro ⟨hx | hx,hb⟩
          · exact .inl hx
          · exact .inr ⟨hx,hb⟩
      · intro x hx
        exact covered_cons.mpr (.inr (hmb x hx))

theorem tidy_append : Tidy (l ++ l') ↔ Tidy l ∧ Tidy l' ∧ ∀ g ∈ l,∀ k ∈ l',g.stop < k.base := by
  simp only [Tidy,mem_append,pairwise_append]
  constructor
  · rintro ⟨hp,h1,h2,h3⟩
    exact ⟨⟨fun g hg => hp g (.inl hg),h1⟩,⟨fun g hg => hp g (.inr hg),h2⟩,h3⟩
  · rintro ⟨⟨hp,h1⟩,⟨hq,h2⟩,h3⟩
    exact ⟨fun g hg => hg.elim (hp g) (hq g),h1,h2,h3⟩

/-- A range of covered points lies in a single extent. -/
theorem Tidy.holds (ht : Tidy l) (he : 0 < e.range) (hc : ∀ x,e.Has x → Covered l x) :
    ∃ pre f post,l = pre ++ f :: post ∧ f.base ≤ e.base ∧ e.stop ≤ f.stop := by
  obtain ⟨f,hf,hfx⟩ := hc e.base ⟨le_rfl,Nat.lt_add_of_pos_right he⟩
  obtain ⟨pre,post,rfl⟩ := append_of_mem hf
  refine ⟨pre,f,post,rfl,hfx.1,?_⟩
  obtain ⟨hpr,hp,hgp⟩ := tidy_append.mp ht
  by_contra hlt
  obtain ⟨g,hg,hgx⟩ := hc f.stop ⟨le_of_lt hfx.2,by omega⟩
  rcases mem_append.mp hg with hg | hg
  · have := hgp g hg f mem_cons_self
    simp only [Extent.Has,Extent.stop] at *
    omega
  rcases mem_cons.mp hg with rfl | hg
  · exact absurd hgx.2 (lt_irrefl _)
  · have := (tidy_cons.mp hp).2.1 g hg
    have := hgx.1
    omega

section
variable (he : 0 < e.range) (hb : f.base ≤ e.base) (hs : e.stop ≤ f.stop)
include he hb hs

theorem tidy_cut : Tidy (cut f e) := by
  have ho : ∀ g : Extent,0 < g.range → Tidy [g] := fun g hg =>
    tidy_cons.mpr ⟨hg,by simp,tidy_nil⟩
  simp only [cut]
  split
  · split
    · exact tidy_nil
    · refine ho _ ?_
      simp only [Extent.stop] at *
      omega
  split
  · refine ho _ ?_
    simp only [Extent.stop] at *
    omega
  refine tidy_cons.mpr ⟨?_,?_,ho _ ?_⟩
  · simp only
    omega
  · simp only [mem_singleton,Extent.stop,forall_eq]
    omega
  · simp only [Extent.stop] at *
    omega

theorem covered_cut : Covered (cut f e) x ↔ f.Has x ∧ ¬ e.Has x := by
  simp only [cut]
  split
  · split
    · simp only [covered_nil,Extent.Has,Extent.stop,false_iff]
      omega
    · simp only [covered_cons,covered_nil,or_false,Extent.Has,Extent.stop] at *
      omega
  · split
    all_goals
      simp only [covered_cons,covered_nil,or_false,Extent.Has,Extent.stop] at *
      omega

end

/-- Cutting a part out of one extent leaves the list tidy and removes just that part. -/
theorem Tidy.cut (ht : Tidy (pre ++ f :: post)) (he : 0 < e.range) (hb : f.base ≤ e.base)
    (hs : e.stop ≤ f.stop) : Tidy (pre ++ (cut f e ++ post)) ∧
      ∀ x,Covered (pre ++ (cut f e ++ post)) x ↔ Covered (pre ++ f :: post) x ∧ ¬ e.Has x := by
  obtain ⟨hpr,hp,hgp⟩ := tidy_append.mp ht
  obtain ⟨hf,hrs,hr⟩ := tidy_cons.mp hp
  have hc := tidy_cut he hb hs
  have hsb : ∀ x,Covered (Extents.cut f e) x → f.Has x := fun x hx => ((covered_cut he hb hs).mp hx).1
  have hen : ∀ g ∈ Extents.cut f e,g.stop ≤ f.stop := by
    intro g hg
    have hps := hc.1 g hg
    have := (hsb (g.stop - 1) ⟨g,hg,by simp only [Extent.Has,Extent.stop]; omega⟩).2
    omega
  refine ⟨tidy_append.mpr ⟨hpr,tidy_append.mpr ⟨hc,hr,?_⟩,?_⟩,?_⟩
  · intro g hg k hk
    exact (hen g hg).trans_lt (hrs k hk)
  · intro g hg k hk
    rcases mem_append.mp hk with hk | hk
    · have hkf : ∀ x,Covered (Extents.cut f e) x → Covered [f] x := fun x hx =>
        covered_cons.mpr (.inl (hsb x hx))
      refine hc.behind hkf ?_ k hk
      intro j hj
      rw [mem_singleton.mp hj]
      exact hgp g hg f mem_cons_self
    · exact hgp g hg k (.tail f hk)
  · intro x
    have ho : e.Has x → ¬ Covered pre x ∧ ¬ Covered post x := by
      intro hex
      have hfx : f.Has x := ⟨hb.trans hex.1,lt_of_lt_of_le hex.2 hs⟩
      refine ⟨?_,hp.head_only hfx⟩
      rintro ⟨g,hg,hgx⟩
      have := hgp g hg f mem_cons_self
      have := hgx.2
      have := hfx.1
      omega
    simp only [covered_append,covered_cons,covered_cut he hb hs]
    tauto

def Apart (l : List Extent) : Prop := l.Pairwise fun a b => ∀ x,a.Has x → ¬ b.Has x

theorem apart_cons : Apart (e :: l) ↔ (∀ x,e.Has x → ¬ Covered l x) ∧ Apart l := by
  simp only [Apart,pairwise_cons,Covered]
  refine and_congr_left fun _ => ?_
  constructor
  · rintro h x hx ⟨f,hf,hfx⟩
    exact h f hf x hx hfx
  · intro h f hf x hx hfx
    exact h x hx ⟨f,hf,hfx⟩

theorem Apart.remove (h : Apart l) (hp : l.Perm (e :: l')) :
    Apart l' ∧ (∀ x,e.Has x → Covered l x) ∧ ∀ x,Covered l' x ↔ Covered l x ∧ ¬ e.Has x := by
  have hs : ∀ {a b : Extent},(∀ x,a.Has x → ¬ b.Has x) → ∀ x,b.Has x → ¬ a.Has x :=
    fun h x hb ha => h x ha hb
  obtain ⟨ho,ha⟩ := apart_cons.mp (hp.pairwise h hs)
  have hc : ∀ x,Covered l x ↔ e.Has x ∨ Covered l' x := by
    intro x
    simp [Covered,hp.mem_iff]
  refine ⟨ha,fun x hx => (hc x).mpr (.inl hx),?_⟩
  intro x
  rw [hc]
  constructor
  · intro hx
    exact ⟨.inr hx,fun he => ho x he hx⟩
  · rintro ⟨hx | hx,he⟩
    · exact absurd hx he
    · exact hx

theorem Tidy.stop_le (ht : Tidy l) (hg : g ∈ l) (h : ∀ x,Covered l x → x < n) : g.stop ≤ n := by
  have hp := ht.1 g hg
  have := h (g.stop - 1) ⟨g,hg,by simp only [Extent.Has,Extent.stop]; omega⟩
  omega

end Mpss.Library.Extents
