import Mathlib.Data.List.Basic

namespace Mpss.Library.Fifo
open List

/-- What a two-phase queue has seen: bytes put are the writer's until a commit, bytes taken the
reader's until a release. -/
structure History (α : Type) where
  written : List α
  committed : List α
  returned : List α
  released : Nat

inductive Request (α : Type)
  | put (xs : List α)
  | commit
  | take (n : Nat)
  | release

inductive Outcome (α : Type)
  | put (xs : List α)
  | refused
  | committed
  | taken (xs : List α)
  | nothing
  | released

def History.empty : History α := ⟨[],[],[],0⟩

/-- The places a writer may not reuse yet. -/
def History.held (h : History α) : Nat := h.written.length - h.released

/-- The part of the committed sequence that nobody has taken yet. -/
def History.waiting (h : History α) : List α := h.committed.drop h.returned.length

/-- A queue with room for `cap` elements answers a request from its history alone. -/
def History.answer (cap : Nat) (h : History α) : Request α → Outcome α
  | .put xs => if xs.length ≤ cap - h.held then .put xs else .refused
  | .commit => .committed
  | .take n => if n ≤ h.waiting.length then .taken (h.waiting.take n) else .nothing
  | .release => .released

def History.record (h : History α) : Outcome α → History α
  | .put xs => { h with written := h.written ++ xs }
  | .refused => h
  | .committed => { h with committed := h.written }
  | .taken xs => { h with returned := h.returned ++ xs }
  | .nothing => h
  | .released => { h with released := h.returned.length }

structure History.Ordered (cap : Nat) (h : History α) : Prop where
  taken : h.returned <+: h.committed
  visible : h.committed <+: h.written
  published : h.released ≤ h.returned.length
  room : h.written.length ≤ h.released + cap

variable {h : History α}

theorem empty_ordered : (History.empty : History α).Ordered cap :=
    ⟨ nil_prefix, nil_prefix,Nat.le_refl _,Nat.zero_le _⟩

section
variable (ho : h.Ordered cap)
include ho

theorem History.Ordered.returned_le : h.returned.length ≤ h.committed.length := ho.taken.length_le

theorem History.Ordered.committed_le : h.committed.length ≤ h.written.length := ho.visible.length_le

/-- The bytes waiting for the reader sit right behind those already returned. -/
theorem History.Ordered.append_waiting : h.returned ++ h.waiting = h.committed := by
  have hp := prefix_iff_eq_take.mp ho.taken
  have := take_append_drop h.returned.length h.committed
  rwa [← hp] at this

theorem History.Ordered.step (r : Request α) : (h.record (h.answer cap r)).Ordered cap := by
  cases r with
  | put xs =>
    simp only [answer]
    split_ifs with hx
    · refine ⟨ho.taken,ho.visible.trans (prefix_append _ _),ho.published,?_⟩
      have hr := ho.room
      simp only [held] at hx
      simp only [record,length_append]
      omega
    · exact ho
  | commit => exact ⟨ho.taken.trans ho.visible,prefix_refl _,ho.published,ho.room⟩
  | take n =>
    simp only [answer]
    split
    · refine ⟨?_,ho.visible,?_,ho.room⟩
      · change h.returned ++ h.waiting.take n <+: h.committed
        rw [← ho.append_waiting]
        exact (prefix_append_right_inj _).mpr ( take_prefix _ _)
      · have := ho.published
        simp only [record,length_append]
        omega
    · exact ho
  | release =>
    refine ⟨ho.taken,ho.visible,Nat.le_refl _,?_⟩
    have := ho.room
    have := ho.published
    simp only [answer,record]
    omega

end

/-- Distinct positions less than one lap apart use distinct slots. -/
theorem slot_ne {a b n : Nat} (hab : a < b) (hn : b < a + n) : a % n ≠ b % n := by
  intro he
  have hd : n ∣ b - a := Nat.dvd_of_mod_eq_zero (Nat.sub_mod_eq_zero_of_mod_eq he.symm)
  have := Nat.eq_zero_of_dvd_of_lt hd (by omega)
  omega

end Mpss.Library.Fifo
