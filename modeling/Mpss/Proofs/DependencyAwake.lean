import Mpss.Library.Runs
import Mpss.Proofs.Deactivation

namespace Mpss.Proofs.DependencyAwake

open Host.PcState Library.Runs Deactivation List Function Option
open Micscif.Nm hiding Act init step

/-- Between transactions the matrix holds what was reported, and an awake card depends on no
sleeping one. A ready card counts as awake. -/
structure Inv (s : State) : Prop where
  edge : ∀ i j,s.host.depmtrx i j = if s.deps i j then .dependent else .notDependent
  card : ∀ i j,s.deps i j = true → cardPair s.host i j
  awake : ∀ i j,s.deps i j = true → IsAwake (s.host.idleState i) → ¬ IsAsleep (s.host.idleState j)

theorem init_inv : Inv (init maxid) :=
  ⟨fun _ _ => rfl,fun _ _ h => (Bool.false_ne_true h).elim,fun _ _ h => (Bool.false_ne_true h).elim⟩

def withIdle (h : Host) (f : Nat → IdleState) : Host := { h with idleState := f }

theorem Inv.idle (hi : Inv s)
    (ha : ∀ i j,s.deps i j = true → IsAwake (f i) → ¬ IsAsleep (f j)) :
    Inv { s with host := withIdle s.host f } :=
  ⟨hi.edge,hi.card,ha⟩

theorem awake_not_asleep (ha : IsAwake st) : ¬ IsAsleep st := by rcases ha with rfl | rfl <;> decide

theorem Inv.setIdle (hi : Inv s) (hto : IsAwake st)
    (hd : ∀ j,s.deps i j = true → ¬ IsAsleep (s.host.idleState j)) :
    Inv { s with host := s.host.setIdle i st } := by
  apply hi.idle
  intro x y hxy hx
  by_cases hy : y = i
  · rw [hy,update_self]
    exact awake_not_asleep hto
  rw [update_of_ne hy]
  by_cases hxi : x = i
  · exact hd y (hxi ▸ hxy)
  · rw [update_of_ne hxi] at hx
    exact hi.awake x y hxy hx

theorem Inv.prepared (hi : Inv s) : Prepared (setupPmDependency s.host) s.deps := by
  refine ⟨?_,hi.card⟩
  intro i j
  simp only [setupPmDependency,hi.edge]
  cases hd : s.deps i j with
  | true => simp [hi.card i j hd]
  | false => simp

theorem Inv.teardown_edge (hi : Inv s) (j : Nat) :
    (teardownPmDependency (withIdle (setupPmDependency s.host) f)).depmtrx i j =
    s.host.depmtrx i j := by
  have he : (withIdle (setupPmDependency s.host) f).depmtrx i j = _ := hi.prepared.edge i j
  simp only [teardownPmDependency,he,hi.edge]
  cases hd : s.deps i j with
  | true =>
    have hc : cardPair (withIdle (setupPmDependency s.host) f) i j := hi.card i j hd
    by_cases hr : (setupPmDependency s.host).idleState i = .pc3Ready <;> simp [hr,hc]
  | false => simp

theorem Inv.teardown (hi : Inv s) (f : Nat → IdleState) :
    teardownPmDependency (withIdle (setupPmDependency s.host) f) = withIdle s.host f := by
  have he : (teardownPmDependency (withIdle (setupPmDependency s.host) f)).depmtrx =
      s.host.depmtrx := funext (fun i => funext (hi.teardown_edge))
  calc teardownPmDependency (withIdle (setupPmDependency s.host) f)
      = ⟨s.host.maxid,f,(teardownPmDependency (withIdle (setupPmDependency s.host) f)).depmtrx⟩ := rfl
    _ = withIdle s.host f := by rw [he]; rfl

theorem enterPc3_ready (hn : is.Nodup)
    (hm : ∀ k ∈ is,k ≠ 0 → mask k = true → h.idleState k = .pc3Ready) :
    enterPc3 mask is h = (true,withIdle h
      (fun k => if k ∈ is ∧ k ≠ 0 ∧ mask k = true then .pc3 else h.idleState k)) := by
  induction is generalizing h with
  | nil => simp [enterPc3,withIdle]
  | cons i is ih =>
    obtain ⟨hi,hn⟩ := nodup_cons.mp hn
    have hr : ∀ k ∈ is,k ≠ 0 → mask k = true → h.idleState k = .pc3Ready := (forall_mem_cons.mp hm).2
    by_cases hms : i ≠ 0 ∧ mask i = true
    · have hs : ∀ k ∈ is,k ≠ 0 → mask k = true → (h.setIdle i .pc3).idleState k = .pc3Ready := by
        intro k hk h0 hb
        have hki : k ≠ i := fun he => hi (he ▸ hk)
        simpa [Host.setIdle,hki] using hr k hk h0 hb
      rw [enterPc3,if_pos hms,if_pos (hm i mem_cons_self hms.1 hms.2),ih hn hs]
      simp only [withIdle,Host.setIdle,Prod.mk.injEq,Host.mk.injEq,true_and,and_true]
      funext k
      by_cases hk : k = i
      · simp [hk,hi,hms]
      · simp [hk]
    · rw [enterPc3,if_neg hms,ih hn hr]
      simp only [withIdle,Prod.mk.injEq,Host.mk.injEq,true_and,and_true]
      funext k
      by_cases hk : k = i
      · simp [hk,hi,hms]
      · simp [hk]

theorem enterPc3_deactivated (hp : Prepared h deps) (hnd : cardPair h node node)
    (hr : h.idleState node = .pc3Ready) (hd : Deactivated h deps node mask) :
    enterPc3 mask h.nodes h =
      (true,withIdle h (fun k => if mask k then .pc3 else h.idleState k)) := by
  have hc : ∀ k,mask k = true → 1 ≤ k ∧ k ≤ h.maxid := by
    intro k hk
    rcases Relation.ReflTransGen.cases_tail (hd.near k hk) with rfl | ⟨a,-,hab⟩
    · exact hnd.1
    · rcases hab.2 with hdp | hdp
      · exact (hp.card a k hdp).2
      · exact (hp.card k a hdp).1
  have hn : h.nodes.Nodup := nodup_range
  rw [enterPc3_ready hn (fun k _ _ hk => (hd.near k hk).ready hr)]
  simp only [withIdle,Prod.mk.injEq,Host.mk.injEq,true_and,and_true]
  funext k
  by_cases hk : mask k = true
  · have := hc k hk
    have hm : k ∈ h.nodes := mem_range.mpr (Nat.lt_succ_of_le this.2)
    have h0 : k ≠ 0 := Nat.one_le_iff_ne_zero.mp this.1
    simp [hk,hm,h0]
  · simp [hk]

theorem suspend_cases (hp : Prepared h deps) (hn : cardPair h node node)
    (hr : h.idleState node = .pc3Ready) (hd : found.1 = .ok → Deactivated h deps node found.2)
    (answers : Answers) :
    (suspend h found answers = (false,h)) ∨ Deactivated h deps node found.2 ∧
      suspend h found answers = (true,withIdle h (fun k => if found.2 k then .pc3
      else h.idleState k)) := by
  unfold suspend
  by_cases hok : found.1 = .ok ∧ answers.scif ∧ answers.pm ∧ answers.vcons
  · refine .inr ⟨hd hok.1,?_⟩
    rw [if_pos hok,enterPc3_deactivated hp hn hr (hd hok.1)]
  · exact .inl (if_neg hok)

section
variable (hi : Inv s) (hn : cardPair s.host node node) (hr : s.host.idleState node = .pc3Ready)
  (hc : Clear s.host s.deps node ∨ Alone s.host s.deps node)
  (he : doIdlestateEntry s.host node answers = some r)
include hi hn hr hc he

/-- A transaction leaves every card as it was, the first card back in `PC0`, or a set of cards
asleep with all that depend on them. -/
theorem doIdlestateEntry_cases :
    r.2 = s.host ∨ r.2 = s.host.setIdle node .pc0 ∨
      ∃ mask,Deactivated s.host s.deps node mask ∧
        r.2 = withIdle s.host (fun k => if mask k then .pc3 else s.host.idleState k) := by
  obtain ⟨found,hf,rfl⟩ := map_eq_some_iff.mp he
  have hst := hi.teardown s.host.idleState
  have hsp := suspend_cases hi.prepared hn hr (getDeactiveset_spec hi.prepared hc hf) answers
  rcases hsp with hs | ⟨hd,hs⟩
  · simp only [hs]
    have hsm : teardownPmDependency (setupPmDependency s.host) = s.host := hst
    rw [hsm]
    by_cases hpc : s.host.idleState node = .pc0
    · simp [hpc]
    · cases hw : answers.wakes node <;> simp [hpc,pmPc3Exit]
  · refine .inr (.inr ⟨found.2,⟨hd.near,hd.closed⟩,?_⟩)
    simp only [hs,hi.teardown,Bool.true_eq_false,false_and,if_false]
    rfl

theorem Inv.entry : Inv { s with host := r.2 } := by
  rcases doIdlestateEntry_cases hi hn hr hc he with hs | hs | ⟨mask,hd,hs⟩
  · rw [hs]
    exact hi
  · rw [hs]
    exact hi.setIdle (.inl rfl) (fun j hj => hi.awake node j hj (.inr hr))
  rw [hs]
  apply hi.idle
  intro x y hxy hx
  have hxm : mask x = false := by
    by_contra hm
    rw [if_pos (Bool.not_eq_false _ ▸ hm)] at hx
    revert hx
    decide
  have hym : mask y = false := by
    by_contra hm
    have := hd.closed y x (Bool.not_eq_false _ ▸ hm) hxy
    rw [hxm] at this
    cases this
  simp only [hxm,hym,Bool.false_eq_true,if_false] at hx ⊢
  exact hi.awake x y hxy hx

end

/-- No entry of the matrix is ever `DISCONNECTED`: the activation set is the card itself. -/
theorem scanDisconnected_idle (hd : ∀ i,h.depmtrx node i ≠ .disconnected) :
    scanDisconnected h node is s = s := by
  induction is with
  | nil => rfl
  | cons i is ih => simp [scanDisconnected,hd i,ih]

def single (node : Nat) : Nodemask := update (fun _ => false) node true

theorem single_iff : single node i = true ↔ i = node := by by_cases hi : i = node <;> simp [single,hi]

theorem getActiveset_alone (hd : ∀ i,h.depmtrx node i ≠ .disconnected) :
    getActiveset h node = some (single node) := by
  simp [getActiveset,activesetLoop,scanDisconnected_idle hd,single]

theorem pmPc6Exit_eq (hd : ∀ j,h.depmtrx node j ≠ .disconnected) :
    pmPc6Exit h node = h.setIdle node .pc0 := by
  have hr : (fun j => if j ≤ h.maxid ∧ h.depmtrx node j = .disconnected then .dependent
      else h.depmtrx node j) = h.depmtrx node := by
    funext j
    simp [hd j]
  rw [pmPc6Exit,hr,update_eq_self]
  rfl

theorem wakeNodes_awake (hpc : h.idleState node = .pc0) (is : List Nat) :
    (wakeNodes (single node) is h).2 = h := by
  induction is with
  | nil => rfl
  | cons i is ih =>
    rw [wakeNodes]
    split_ifs with hi
    · rw [single_iff.mp hi.2,hpc]
      exact ih
    · exact ih

theorem wakeNodes_single (hd : ∀ j,h.depmtrx node j ≠ .disconnected) (is : List Nat) :
    (wakeNodes (single node) is h).2 = h ∨
      (wakeNodes (single node) is h).2 = h.setIdle node .pc0 := by
  have hw := wakeNodes_awake (h := h.setIdle node .pc0) (update_self ..)
  induction is with
  | nil => exact .inl rfl
  | cons i is ih =>
    by_cases hi : i ≠ 0 ∧ single node i = true
    · rw [wakeNodes,if_pos hi,single_iff.mp hi.2]
      cases hst : h.idleState node with
      | pc0 => exact ih
      | pc3Ready | pc3 => exact .inr (hw is)
      | pc6 =>
        simp only [pmPc6Exit_eq hd]
        exact .inr (hw is)
      | lost => exact .inl rfl
    · rw [wakeNodes,if_neg hi]
      exact ih

theorem Inv.connected (hi : Inv s) (i j : Nat) : s.host.depmtrx i j ≠ .disconnected := by
  rw [hi.edge]
  split <;> simp

theorem Inv.exit (hi : Inv s) (hd : ∀ j,s.deps node j = true → ¬ IsAsleep (s.host.idleState j))
    (he : doIdlestateExit s.host node = some r) : Inv { s with host := r.2 } := by
  rw [doIdlestateExit,getActiveset_alone (hi.connected node)] at he
  cases he
  rcases wakeNodes_single (hi.connected node) s.host.nodes with hs | hs
  · simpa only [hs] using hi
  · simpa only [hs] using hi.setIdle (.inl rfl) hd

theorem Inv.pc6 (hi : Inv s) (node : Nat) (entered : Bool) :
    Inv { s with host := pc6EntryStart s.host node entered } := by
  unfold pc6EntryStart
  split_ifs with hpc
  · apply hi.idle
    intro x y hxy hx
    have hxn : x ≠ node := by
      rintro rfl
      rw [update_self] at hx
      revert hx
      decide
    rw [update_of_ne hxn] at hx
    have hy := hi.awake x y hxy hx
    have hyn : y ≠ node := by
      rintro rfl
      exact hy (.inl hpc.1)
    rwa [update_of_ne hyn]
  · exact hi

theorem Inv.report (hi : Inv s) (hc : cardPair s.host i j) (hj : IsAwake (s.host.idleState j))
    (dep : Bool) : Inv (report s i j dep) := by
  have hd : ∀ x y,(Mpss.Host.PcState.report s i j dep).deps x y =
      if x = i ∧ y = j then dep else s.deps x y := by
    intro x y
    by_cases hx : x = i
    · by_cases hy : y = j <;> simp [Mpss.Host.PcState.report,hx,hy]
    · simp [Mpss.Host.PcState.report,hx]
  have hed : ∀ x y,(Mpss.Host.PcState.report s i j dep).host.depmtrx x y =
      if x = i ∧ y = j then (if dep then .dependent else .notDependent) else s.host.depmtrx x y := by
    intro x y
    by_cases hx : x = i
    · by_cases hy : y = j <;> simp [Mpss.Host.PcState.report,setNodedep,hx,hy]
    · simp [Mpss.Host.PcState.report,setNodedep,hx]
  refine ⟨?_,?_,?_⟩
  · intro x y
    rw [hd,hed,hi.edge]
    split <;> rfl
  · intro x y hxy
    rw [hd] at hxy
    split_ifs at hxy with he
    · rw [he.1,he.2]
      exact hc
    · exact hi.card x y hxy
  · intro x y hxy hx
    rw [hd] at hxy
    split_ifs at hxy with he
    · rw [he.2]
      exact awake_not_asleep hj
    · exact hi.awake x y hxy hx

/-- Both transactions return: none of their searches goes on for ever. -/
theorem doIdlestateEntry_returns (hn : cardPair h node node) :
    ∃ r,doIdlestateEntry h node answers = some r := by
  have hm : node ∈ (setupPmDependency h).nodes := mem_range.mpr (Nat.lt_succ_of_le hn.1.2)
  obtain ⟨found,hf⟩ := getDeactiveset_returns hm
  exact ⟨_,map_eq_some_iff.mpr ⟨found,hf,rfl⟩⟩

/-- A card is woken only while no card it depends on sleeps. It begins its entry only while no
active card depends on it or on a ready card linked to it, or while it is linked to no other ready
card. -/
def Allowed (s : State) : Act → Prop
  | .entry i _ => Clear s.host s.deps i ∨ Alone s.host s.deps i
  | .exit i => ∀ j,s.deps i j = true → ¬ IsAsleep (s.host.idleState j)
  | _ => True

theorem step_preserves (s : State) (a : Act) (t : State) (hi : Inv s) (ha : Allowed s a)
    (h : step s a = some t) : Inv t := by
  cases a with
  | createDep i j | destroyDep i j => exact of_guard h (fun hc => hi.report hc.1 hc.2.2 _)
  | ready i =>
    exact of_guard h (fun hc => hi.setIdle (.inr rfl) (fun j hj => hi.awake i j hj (.inl hc.2)))
  | entry i answers =>
    obtain ⟨hc,h⟩ := ite_none_right_eq_some.mp h
    obtain ⟨r,hr,rfl⟩ := map_eq_some_iff.mp h
    exact hi.entry hc.1 hc.2 ha hr
  | pc6 i entered => exact of_guard h (fun _ => hi.pc6 i entered)
  | exit i =>
    obtain ⟨_,h⟩ := ite_none_right_eq_some.mp h
    obtain ⟨r,hr,rfl⟩ := map_eq_some_iff.mp h
    exact hi.exit ha hr

/-- In every run whose steps are allowed, no card in `PC0` depends on a card in `PC3` or `PC6`. -/
theorem no_awake_card_depends_on_sleeping (maxid : Nat) (as : List Act) (t : State)
    (ha : Along step Allowed (init maxid) as) (he : exec step (init maxid) as = some t)
    (hi : t.host.idleState i = .pc0) (hd : t.deps i j = true) :
    t.host.idleState j ≠ .pc3 ∧ t.host.idleState j ≠ .pc6 := by
  have hin := exec_invariant step_preserves (init_inv) ha he
  have := hin.awake i j hd (.inl hi)
  exact ⟨fun hj => this (.inl hj),fun hj => this (.inr hj)⟩

def allAnswer : Answers := ⟨true,true,true,fun _ => true⟩

/-- Three cards that depend on each other in a ring, two of them ready. -/
theorem ring_of_cards_returns :
    ∃ s,exec step (init 3) [.createDep 1 2,.createDep 2 3,.createDep 3 1,.ready 1,.ready 2] =
      some s ∧ ∃ r,doIdlestateEntry s.host 1 allAnswer = some r :=
  ⟨_,rfl,doIdlestateEntry_returns (by decide)⟩

theorem no_awake_card_depends_on_sleeping_pair :
    ∃ t,exec step (init 2) [.createDep 1 2,.ready 1,.ready 2,.entry 2 allAnswer,.exit 2,.exit 1] =
      some t ∧ t.host.idleState 1 = .pc0 ∧ t.deps 1 2 = true ∧
      t.host.idleState 2 ≠ .pc3 ∧ t.host.idleState 2 ≠ .pc6 := by
  have hd : ∀ x y,(report (init 2) 1 2 true).deps x y = true → x = 1 ∧ y = 2 := by
    intro x y hxy
    by_cases hx : x = 1
    · by_cases hy : y = 2
      · exact ⟨hx,hy⟩
      · simp [report,init,hx,hy] at hxy
    · simp [report,init,hx] at hxy
  have ha : Along step Allowed (init 2)
      [.createDep 1 2,.ready 1,.ready 2,.entry 2 allAnswer,.exit 2,.exit 1] := by
    refine Along.cons trivial rfl (Along.cons trivial rfl (Along.cons trivial rfl
      (Along.cons ?_ rfl (Along.cons ?_ rfl (Along.cons ?_ rfl trivial)))))
    · refine .inl ?_
      intro b _ x hx
      rw [(hd x b hx).1]
      rfl
    · intro j hj
      exact absurd (hd 2 j hj).1 (by decide)
    · intro j hj
      rw [(hd 1 j hj).2]
      decide
  refine ⟨_,rfl,rfl,rfl,?_⟩
  exact no_awake_card_depends_on_sleeping (i := 1) (j := 2) 2 _ _ ha rfl rfl rfl

/-- A woken card leaves the card it depends on asleep; a card goes to sleep under a running
dependent when a ready one was found before it. -/
theorem sleeping_dependency_reached :
    (∃ t,exec step (init 2) [.createDep 1 2,.ready 1,.ready 2,.entry 2 allAnswer,.exit 1] = some t ∧
      t.host.idleState 1 = .pc0 ∧ t.deps 1 2 = true ∧ t.host.idleState 2 = .pc3) ∧
    ∃ t,exec step (init 3) [.createDep 1 2,.createDep 3 2,.ready 1,.ready 2,.entry 2 allAnswer] =
        some t ∧
      t.host.idleState 3 = .pc0 ∧ t.deps 3 2 = true ∧ t.host.idleState 2 = .pc3 :=
  ⟨⟨_,rfl,rfl,rfl,rfl⟩,⟨_,rfl,rfl,rfl,rfl⟩⟩

end Mpss.Proofs.DependencyAwake
