import Mpss.Proofs.Activation

namespace Mpss.Proofs.SuspendRefused

open Micscif.Nm Activation Function

def Wanted (mask : MaskBytes) (dev : Nat → MicscifDev) (i : Nat) : Prop :=
  getNodemaskBit mask i = true ∧ (dev i).sdState = .running

def Idle (dev : MicscifDev) : Prop := dev.scifRefCnt = 0 ∨ dev.scifRefCnt = scifNodeIdle

/-- A peer below `n` is in use, and no running peer of the mask comes after it. -/
def LastBusy (mask : MaskBytes) (dev : Nat → MicscifDev) (n : Nat) : Prop :=
  ∃ i < n,Wanted mask dev i ∧ ¬ Idle (dev i) ∧ ∀ j,i < j → j < n → ¬ Wanted mask dev j

/-- Where the loop stands after `n` nodes. -/
structure Reached (mask : MaskBytes) (dev : Nat → MicscifDev) (n : Nat) (s : Suspending) : Prop where
  ahead : ∀ j,n ≤ j → s.dev j = dev j ∧ getNodemaskBit s.nodemask j = getNodemaskBit mask j
  slept : ∀ j < n,Wanted mask dev j → Idle (dev j) → s.dev j = ⟨.sleeping,scifNodeIdle⟩
  ret : s.ret ≠ 0 ↔ LastBusy mask dev n

theorem Reached.node (h : Reached mask dev n s) : Reached mask dev (n + 1) (suspendNode s n) := by
  obtain ⟨hd,hm⟩ := h.ahead n le_rfl
  have hbl : ∀ j < n + 1,j ≠ n → j < n := fun j hj hne => by omega
  unfold suspendNode
  rw [hd,hm]
  split
  · rename_i hw
    split_ifs with hi
    · refine ⟨?_,?_,?_⟩
      · intro j hj
        have hne : j ≠ n := by omega
        simpa [hne] using h.ahead j (by omega)
      · intro j hj hwj hij
        by_cases hne : j = n
        · simp [hne]
        · simpa [hne] using h.slept j (hbl j hj hne) hwj hij
      · refine ⟨fun hr => absurd rfl hr,?_⟩
        rintro ⟨i,hi',hwi,hbi,hl⟩
        by_cases hne : i = n
        · exact absurd (hne ▸ hi) hbi
        · exact absurd hw (hl n (by omega) (by omega))
    · refine ⟨?_,?_,?_⟩
      · intro j hj
        have hne : j ≠ n := by omega
        simpa [getNodemaskBit_set,hne] using h.ahead j (by omega)
      · intro j hj hwj hij
        by_cases hne : j = n
        · exact absurd (hne ▸ hij) hi
        · exact h.slept j (hbl j hj hne) hwj hij
      · exact ⟨fun _ => ⟨n,by omega,hw,hi,fun j hj hlt => by omega⟩,fun _ => (by decide : eagain ≠ 0)⟩
  · rename_i hw
    refine ⟨fun j hj => h.ahead j (by omega),?_,?_⟩
    · intro j hj hwj hij
      exact h.slept j (hbl j hj (fun he => hw (he ▸ hwj))) hwj hij
    rw [h.ret]
    refine ⟨?_,?_⟩
    · rintro ⟨i,hi,hwi,hbi,hl⟩
      refine ⟨i,by omega,hwi,hbi,?_⟩
      intro j hij hj hwj
      exact hl j hij (hbl j hj (fun he => hw (he ▸ hwj))) hwj
    · rintro ⟨i,hi,hwi,hbi,hl⟩
      exact ⟨i,hbl i hi (fun he => hw (he ▸ hwi)),hwi,hbi,fun j hij hj => hl j hij (by omega)⟩

theorem reached (mask : MaskBytes) (dev : Nat → MicscifDev) (n : Nat) :
    Reached mask dev n ((List.range n).foldl suspendNode ⟨0,mask,dev⟩) := by
  induction n with
  | zero => exact ⟨fun _ _ => ⟨rfl,rfl⟩,fun _ hj => absurd hj (Nat.not_lt_zero _),
      fun h => absurd rfl h,fun ⟨_,hi,_⟩ => absurd hi (Nat.not_lt_zero _)⟩
  | succ n ih =>
    rw [List.range_succ,List.foldl_append]
    exact ih.node

/-- A suspend that succeeds found every running peer of the mask idle and put it to sleep. -/
structure Refused (maxid : Nat) (mask : MaskBytes) (dev : Nat → MicscifDev) : Prop where
  slept : (micscifSuspend maxid mask dev).ret = 0 → ∀ i ≤ maxid,Wanted mask dev i → Idle (dev i) ∧
    (micscifSuspend maxid mask dev).dev i = ⟨.sleeping,scifNodeIdle⟩
  busy : (∃ i ≤ maxid,Wanted mask dev i ∧ 0 < (dev i).scifRefCnt) →
    (micscifSuspend maxid mask dev).ret ≠ 0

/-- The loop keeps the result of its last node: a peer in use is noticed when no running peer of the
mask follows it. -/
theorem suspend_refused_iff (maxid nodeid : Nat) (mask : MaskBytes) (dev : Nat → MicscifDev) :
    (Refused maxid mask dev ↔ (∀ i ≤ maxid,Wanted mask dev i → Idle (dev i)) ∨
      LastBusy mask dev (maxid + 1)) ∧
    ((micscifSuspendHandler maxid nodeid dev).2 = true ↔
      (micscifSuspend maxid (handlerMask maxid nodeid) dev).ret = 0) := by
  have hr := reached mask dev (maxid + 1)
  refine ⟨⟨?_,?_⟩,?_⟩
  · intro h
    by_cases h0 : (micscifSuspend maxid mask dev).ret = 0
    · exact .inl (fun i hi hw => (h.slept h0 i hi hw).1)
    · exact .inr (hr.ret.mp h0)
  · rintro (hid | hl)
    · refine ⟨?_,?_⟩
      · intro _ i hi hw
        exact ⟨hid i hi hw,hr.slept i (Nat.lt_succ_of_le hi) hw (hid i hi hw)⟩
      · rintro ⟨i,hi,hw,hp⟩
        rcases hid i hi hw with h | h <;> rw [h] at hp
        all_goals exact absurd hp (by decide)
    · exact ⟨fun h0 => absurd h0 (hr.ret.mpr hl),fun _ => hr.ret.mpr hl⟩
  · unfold micscifSuspendHandler
    split <;> simp_all

/-- Node 1 is in use and node 2 is not: the suspend succeeds and the DMA engine is stopped. -/
theorem busy_peer_suspended :
    ¬ Refused 2 (handlerMask 2 3) (fun i => ⟨.running,if i = 1 then 1 else 0⟩) ∧
      micscifSuspendHandler 2 3 (fun i => ⟨.running,if i = 1 then 1 else 0⟩) = (0,true) := by
  refine ⟨?_,by decide⟩
  intro h
  exact h.busy ⟨1,by decide,⟨by decide,rfl⟩,by decide⟩ (by decide)

end Mpss.Proofs.SuspendRefused
