import Mathlib.Algebra.Order.Ring.Int

namespace Mpss.Library.Bytes
open List Function

abbrev Memory (β : Type) := Nat → β

/-- Overwrite `n` cells from `dst` on; every other cell keeps its contents. -/
def blit (m : Memory β) (dst : Nat) (src : Nat → β) (n : Nat) : Memory β :=
  fun a => if dst ≤ a ∧ a < dst + n then src (a - dst) else m a

theorem blit_at (m : Memory β) (dst : Nat) (src : Nat → β) (hi : i < n) :
    blit m dst src n (dst + i) = src i := by
  simp [blit,hi]

theorem blit_outside (m : Memory β) (src : Nat → β) (ha : a < dst ∨ dst + n ≤ a) :
    blit m dst src n a = m a := by
  unfold blit
  rw [if_neg (by omega)]

theorem blit_zero : blit m dst f 0 = m := by
  funext a
  exact if_neg (by omega)

theorem blit_congr (h : ∀ i < n,f i = g i) : blit m dst f n = blit m dst g n := by
  funext a
  unfold blit
  split
  · exact h _ (by omega)
  · rfl

theorem blit_append : blit (blit m dst f n) (dst + n)
    (fun i => f (n + i)) k = blit m dst f (n + k) := by
  funext a
  unfold blit
  by_cases hl : dst ≤ a ∧ a < dst + n
  · rw [if_neg (by omega),if_pos hl,if_pos (by omega)]
  by_cases hh : dst + n ≤ a ∧ a < dst + n + k
  · rw [if_pos hh,if_pos (by omega)]
    have hs : n + (a - (dst + n)) = a - dst := by omega
    exact congrArg f hs
  · rw [if_neg hh,if_neg hl,if_neg (by omega)]

theorem foldl_update_range :
    (List.range n).foldl (fun m j => update m (dst + j) (f j)) m = blit m dst f n := by
  induction n with
  | zero =>
    funext a
    simp [blit]
  | succ n ih =>
    rw [range_succ,foldl_append,ih]
    funext a
    simp only [foldl_cons,foldl_nil,update_apply,blit]
    by_cases ha : a = dst + n
    · simp [ha]
    · rw [if_neg ha]
      by_cases hin : dst ≤ a ∧ a < dst + n
      · rw [if_pos hin,if_pos (by omega)]
      · rw [if_neg hin,if_neg (by omega)]

def Placed (l : List α) (off : Nat) (piece : List α) : Prop := (l.drop off).take piece.length = piece

instance [DecidableEq α] (l : List α) (off : Nat) (piece : List α) : Decidable (Placed l off piece) :=
  inferInstanceAs (Decidable (_ = _))

variable {xs ys : List α}

theorem placed_append : Placed l off (xs ++ ys) ↔ Placed l off xs ∧ Placed l (off + xs.length) ys := by
  unfold Placed
  rw [length_append,take_add,drop_drop]
  constructor
  · intro h
    have hl : ((l.drop off).take xs.length).length = xs.length := by
      have hs := congrArg length h
      simp only [length_append,length_take,length_drop] at hs ⊢
      omega
    exact append_inj h hl
  · rintro ⟨hxs,hys⟩
    rw [hxs,hys]

end Mpss.Library.Bytes
