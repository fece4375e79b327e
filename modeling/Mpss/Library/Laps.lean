import Mathlib.Algebra.Order.Ring.Int
import Mathlib.Data.List.Range

namespace Mpss.Library.Laps
open List Function

variable {owner : Nat → Option α}

/-- A position less than one lap ahead either stays in this lap or falls into the next one. -/
theorem lap_cases (t : Nat) (hd : d < n) : (t + d) % n = t % n + d ∨ (t + d) % n + n = t % n + d := by
  have ht := Nat.mod_lt t (Nat.zero_lt_of_lt hd)
  rw [Nat.add_mod,Nat.mod_eq_of_lt hd]
  rcases lt_or_ge (t % n + d) n with h | h
  · exact .inl (Nat.mod_eq_of_lt h)
  · right
    rw [Nat.mod_eq_sub_mod h,Nat.mod_eq_of_lt (by omega)]
    omega

theorem slot_lt (p : Nat) (hn : 0 < n) : p % n < n := Nat.mod_lt p hn

theorem slot_inj {p q t n : Nat} (hp : t ≤ p) (hq : t ≤ q) (hp' : p < t + n) (hq' : q < t + n)
    (h : p % n = q % n) : p = q := by
  obtain ⟨d,rfl⟩ := Nat.exists_eq_add_of_le hp
  obtain ⟨e,rfl⟩ := Nat.exists_eq_add_of_le hq
  have := lap_cases t (show d < n by omega)
  have := lap_cases t (show e < n by omega)
  omega

/-- What a ring reads off its head and tail slots: whether it is empty, and how far it is from
being full. -/
theorem free_slots {h t n : Nat} (hle : t ≤ h) (hlt : h < t + n) :
    if h % n = t % n then h = t
    else (if h % n > t % n then t % n + (n - h % n) else t % n - h % n) + (h - t) = n := by
  obtain ⟨d,rfl⟩ := Nat.exists_eq_add_of_le hle
  have hd : d < n := by omega
  have hh := slot_lt (t + d) (Nat.zero_lt_of_lt hd)
  rcases lap_cases t hd with hc | hc
  all_goals
    split
    · omega
    · split <;> omega

theorem slot_succ : (p % n + 1) % n = (p + 1) % n := by rw [Nat.mod_add_mod]

theorem update_other {f : Nat → α} (hp : t ≤ p) (hq : t ≤ q) (hp' : p < t + n)
    (hq' : q < t + n) (hne : q ≠ p) : update f (p % n) a (q % n) = f (q % n) :=
  update_of_ne (fun h => hne (slot_inj hq hp hq' hp' h)) _ _

def upTo (owner : Nat → Option α) (n : Nat) : List α := (List.range n).filterMap owner

@[simp] theorem upTo_zero : upTo owner 0 = [] := rfl

theorem upTo_succ : upTo owner (n + 1) = upTo owner n ++ (owner n).toList := by
  simp only [upTo,range_succ,filterMap_append]
  cases h : owner n <;> simp [h]

theorem upTo_succ_none (h : owner n = none) :
    upTo owner (n + 1) = upTo owner n := by simp [upTo_succ,h]

theorem upTo_succ_some (h : owner n = some x) :
    upTo owner (n + 1) = upTo owner n ++ [x] := by simp [upTo_succ,h]

theorem mem_upTo : x ∈ upTo owner n ↔ ∃ q < n,owner q = some x := by simp [upTo,mem_filterMap]

theorem upTo_congr (h : ∀ q < n,owner q = other q) : upTo owner n = upTo other n := by
  refine filterMap_congr ?_
  intro q hq
  exact h q (mem_range.mp hq)

theorem upTo_skip (hmn : m ≤ n) (h : ∀ q,m ≤ q → q < n → owner q = none) :
    upTo owner n = upTo owner m := by
  induction n,hmn using Nat.le_induction with
  | base => rfl
  | succ n hmn ih =>
    rw [upTo_succ_none (h n hmn (Nat.lt_succ_self n))]
    exact ih (fun q hq hqn => h q hq (Nat.lt_succ_of_lt hqn))

theorem upTo_mono (owner : Nat → Option α) (hmn : m ≤ n) : upTo owner m <+: upTo owner n := by
  induction n,hmn using Nat.le_induction with
  | base => exact prefix_refl _
  | succ n _ ih =>
    rw [upTo_succ]
    exact ih.trans (prefix_append _ _)

/-- Items that know their position come in the order of their positions. -/
theorem upTo_pairwise {place : α → Nat} (h : ∀ q x,owner q = some x → place x = q) :
    (upTo owner n).Pairwise (fun x y => place x < place y) := by
  refine pairwise_filterMap.mpr ?_
  refine pairwise_lt_range.imp ?_
  intro p q hpq x hx y hy
  rw [h p x hx,h q y hy]
  exact hpq

/-- An item recorded behind all the others comes last. -/
theorem upTo_update : upTo (update owner n (some x)) (n + 1) = upTo owner n ++ [x] := by
  rw [upTo_succ_some (update_self n (some x) owner)]
  congr 1
  refine upTo_congr ?_
  intro q hq
  exact update_of_ne (ne_of_lt hq) _ _

end Mpss.Library.Laps
