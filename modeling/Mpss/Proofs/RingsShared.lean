import Mpss.Vop.Rings

namespace Mpss.Proofs.RingsShared
open Vop.Rings List

theorem polled (ran : Nat → Bool) (round n : Nat) (hf : vdev.usedAddressUpdated = true) :
    (∃ k ≤ n,ran (round + k)) ∧ (poll ran vdev round n).2.post = true ∨
      (∀ k ≤ n,ran (round + k) = false) ∧ poll ran vdev round n = (-1,vdev) := by
  induction n generalizing round with
  | zero =>
    rw [poll]
    cases hr : ran round with
    | true => exact .inl ⟨⟨0,le_rfl,hr⟩,by simp [vopBhHandler,hf]⟩
    | false => exact .inr ⟨by simp [hr],rfl⟩
  | succ n ih =>
    rw [poll]
    cases hr : ran round with
    | true =>
      left
      refine ⟨⟨0,by omega,hr⟩,?_⟩
      simp [vopBhHandler,hf]
    | false =>
      simp only [Bool.false_eq_true,if_false,hf,Bool.not_true]
      rcases ih (round + 1) with ⟨⟨k,hk,hs⟩,hp⟩ | ⟨hn,hp⟩
      · exact .inl ⟨⟨k + 1,by omega,by rwa [add_comm k,← add_assoc]⟩,hp⟩
      refine .inr ⟨?_,hp⟩
      intro k hk
      cases k with
      | zero => exact hr
      | succ k =>
        rw [add_comm k,← add_assoc]
        exact hn k (by omega)

/-- The queues are used after the host took their rings over, and otherwise there are none. -/
def Taken (r : Int × Vdev) : Prop := (r.1 = 0 → r.2.post = true) ∧
    (r.2.post = false → r.1 < 0 ∧ r.2.vqs = [])

/-- A time-out ends the loop with `retry` at -1, and the test for 0 lets it pass. -/
theorem queues_taken_iff (numVq nvqs : Nat) (findVq : Nat → Option { err : Int // err < 0 })
    (ran : Nat → Bool) : Taken (vopFindVqs numVq nvqs findVq ran) ↔
      (nvqs ≤ numVq → (∀ i < nvqs,findVq i = none) → ∃ k ≤ 100,ran k = true) := by
  unfold vopFindVqs
  split_ifs with hlt
  · exact iff_of_true ⟨nofun,fun _ => ⟨by decide,rfl⟩⟩ (by omega)
  split
  · rename_i err he
    obtain ⟨i,hi,he⟩ := exists_of_findSome?_eq_some he
    have hn := err.2
    refine iff_of_true ⟨fun h => by dsimp only at h; omega,fun _ => ⟨hn,rfl⟩⟩ ?_
    intro _ h
    rw [h i (mem_range.mp hi)] at he
    cases he
  · rename_i hno
    rcases polled ran 0 100 (rfl : (⟨true,false,range nvqs⟩ : Vdev).1 = true) with ⟨hk,hp⟩ | ⟨hn,hp⟩
    · simp only [zero_add] at hk
      refine iff_of_true ?_ fun _ _ => hk
      dsimp only
      split <;> exact ⟨fun _ => hp,fun h => absurd (hp.symm.trans h) (by decide)⟩
    rw [hp]
    refine iff_of_false (fun h => nomatch h.1 rfl) fun h => ?_
    obtain ⟨k,hk,hr⟩ := h (by omega) (by simpa using hno)
    rw [← zero_add k,hn k hk] at hr
    cases hr

theorem silent_host_accepted :
    vopFindVqs 1 1 (fun _ => none) (fun _ => false) = (0,⟨true,false,[0]⟩) ∧
    ¬ Taken (0,⟨true,false,[0]⟩) :=
  ⟨rfl,fun h => nomatch h.1 rfl⟩

end Mpss.Proofs.RingsShared
