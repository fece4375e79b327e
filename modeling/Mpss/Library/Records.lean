import Mathlib.Algebra.Order.Ring.Int
import Mathlib.Data.List.Pairwise

namespace Mpss.Library.Records
open List

/-- Records at the given places, one behind the other; the size of a record can be read at its
place. -/
def Row (size : Nat → Nat) : Nat → List Nat → Nat → Prop
  | i,[],j => i = j
  | i,a :: rest,j => a = i ∧ Row size (i + size i) rest j

theorem row_append : Row size i (xs ++ ys) k ↔ ∃ j,Row size i xs j ∧ Row size j ys k := by
  induction xs generalizing i with
  | nil => simp [Row]
  | cons a xs ih =>
    simp only [cons_append,Row,ih]
    constructor
    · rintro ⟨ha,j,hxs,hys⟩
      exact ⟨j,⟨ha,hxs⟩,hys⟩
    · rintro ⟨j,⟨ha,hxs⟩,hys⟩
      exact ⟨ha,j,hxs,hys⟩

section
variable (h : Row size i xs j)
include h

theorem Row.congr (hs : ∀ a ∈ xs,size' a = size a) : Row size' i xs j := by
  induction xs generalizing i with
  | nil => exact h
  | cons a xs ih =>
    obtain ⟨rfl,hr⟩ := h
    refine ⟨rfl,?_⟩
    rw [hs a mem_cons_self]
    exact ih hr (forall_mem_cons.mp hs).2

theorem Row.bounds : i ≤ j ∧ ∀ a ∈ xs,i ≤ a ∧ a + size a ≤ j := by
  induction xs generalizing i with
  | nil => exact ⟨le_of_eq h,forall_mem_nil _⟩
  | cons a xs ih =>
    obtain ⟨rfl,hr⟩ := h
    obtain ⟨hle,ha⟩ := ih hr
    refine ⟨by omega,forall_mem_cons.mpr ⟨by omega,?_⟩⟩
    intro b hb
    have := ha b hb
    omega

theorem Row.apart : xs.Pairwise (fun a b => a + size a ≤ b) := by
  induction xs generalizing i with
  | nil => exact .nil
  | cons a xs ih =>
    obtain ⟨rfl,hr⟩ := h
    exact pairwise_cons.mpr ⟨fun b hb => (hr.bounds.2 b hb).1,ih hr⟩

theorem Row.disjoint (ha : a ∈ xs) (hb : b ∈ xs) : a = b ∨ a + size a ≤ b ∨ b + size b ≤ a := by
  induction xs generalizing i with
  | nil => cases ha
  | cons c xs ih =>
    obtain ⟨rfl,hr⟩ := h
    rcases mem_cons.mp ha with rfl | ha'
    · rcases mem_cons.mp hb with rfl | hb'
      · exact .inl rfl
      · exact .inr (.inl (hr.bounds.2 b hb').1)
    · rcases mem_cons.mp hb with rfl | hb'
      · exact .inr (.inr (hr.bounds.2 a ha').1)
      · exact ih hr ha' hb'

theorem Row.length_le (hs : ∀ a ∈ xs,n ≤ size a) : i + n * xs.length ≤ j := by
  induction xs generalizing i with
  | nil => simpa using le_of_eq h
  | cons a xs ih =>
    obtain ⟨rfl,hr⟩ := h
    have hrw := ih hr (forall_mem_cons.mp hs).2
    have ha := hs a mem_cons_self
    rw [length_cons,Nat.mul_succ]
    omega

end

end Mpss.Library.Records
