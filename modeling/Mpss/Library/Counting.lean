import Mathlib.Algebra.Order.Ring.Int
import Mathlib.Data.List.Basic

namespace Mpss.Library.Counting
open List Option

/-- Keys in use with the number of references to each; a key without an entry is free. -/
abbrev Refs (κ : Type) := κ → Option Nat

variable [DecidableEq κ]

def Refs.count (r : Refs κ) (k : κ) : Nat := (r k).getD 0

def Refs.reserve (r : Refs κ) (k : κ) : Refs κ := fun j => if j = k then some 1 else r j

def Refs.get (r : Refs κ) (k : κ) : Refs κ := fun j => if j = k then (r k).map (· + 1) else r j

def Refs.put (r : Refs κ) (k : κ) : Refs κ :=
  fun j => if j = k then (r k).bind (fun n => if n - 1 = 0 then none else some (n - 1)) else r j

/-- How many members of the list hold the key. -/
def holders (held : α → Option κ) (l : List α) (k : κ) : Nat := l.countP (fun a => held a = some k)

/-- The table counts the holders of every key. -/
structure Counted (r : Refs κ) (held : α → Option κ) (l : List α) : Prop where
  count : ∀ k,r.count k = holders held l k
  used : ∀ k,r k ≠ some 0

variable {r : Refs κ} {held : α → Option κ} {l : List α} {a b : α} {k : κ}

theorem holders_set (held : α → Option κ) (ha : l[i]? = some a) (b : α) (k : κ) :
    holders held (l.set i b) k + (if held a = some k then 1 else 0) =
      holders held l k + (if held b = some k then 1 else 0) := by
  obtain ⟨hi,hv⟩ := List.getElem?_eq_some_iff.mp ha
  unfold holders
  rw [countP_set hi,hv]
  simp only [decide_eq_true_eq]
  by_cases h : held a = some k
  · have : 0 < l.countP (fun a => held a = some k) :=
      countP_pos_iff.mpr ⟨a,mem_of_getElem? ha,by simpa using h⟩
    simp only [h,if_true]
    omega
  · simp only [h,if_false]
    omega

theorem holders_set_same (ha : l[i]? = some a) (hb : held b = held a) (k : κ) :
    holders held (l.set i b) k = holders held l k := by
  have := holders_set held ha b k
  rw [hb] at this
  omega

theorem holders_cons (held : α → Option κ) (a : α) (l : List α) (k : κ) :
    holders held (a :: l) k = holders held l k + if held a = some k then 1
    else 0 := by simp [holders,countP_cons]

theorem holders_erase [DecidableEq α] (held : α → Option κ) (ha : a ∈ l) (k : κ) :
    holders held (l.erase a) k + (if held a = some k then 1 else 0) = holders held l k := by
  have hp := (perm_cons_erase ha).countP_eq (fun b => held b = some k)
  have hc := holders_cons held a (l.erase a) k
  unfold holders at hc ⊢
  omega

theorem holders_append (held : α → Option κ) :
    holders held (l ++ m) k = holders held l k + holders held m k := countP_append

theorem holders_pos (ha : a ∈ l) (h : held a = some k) : 0 < holders held l k :=
  countP_pos_iff.mpr ⟨a,ha,by simpa using h⟩

def total (weight : α → Nat) (l : List α) : Nat := (l.map weight).sum

theorem total_set (weight : α → Nat) (ha : l[i]? = some a) (b : α) :
    total weight (l.set i b) + weight a = total weight l + weight b := by
  induction l generalizing i with
  | nil => cases ha
  | cons c l ih =>
    cases i with
    | zero =>
      cases ha
      simp only [total,set_cons_zero,map_cons,sum_cons]
      omega
    | succ i =>
      have := ih ha
      simp only [total,set_cons_succ,map_cons,sum_cons] at this ⊢
      omega

theorem total_modify (hf : ∀ a,weight (f a) = weight a) (l : List α)
    (i : Nat) : total weight (l.modify i f) = total weight l := by
  rw [total,modify_eq_set_getElem?]
  cases h : l[i]? with
  | none => rfl
  | some a =>
    have := total_set weight h (f a)
    rw [hf a] at this
    exact add_right_cancel this

theorem total_erase [DecidableEq α] (weight : α → Nat) (ha : a ∈ l) :
    weight a + total weight (l.erase a) = total weight l :=
  ((perm_cons_erase ha).map weight).sum_nat.symm

theorem Counted.append (h : Counted r held l) (hb : held b = none) : Counted r held (l ++ [b]) := by
  refine ⟨fun k => ?_,h.used⟩
  rw [h.count k]
  simp [holders,hb]

theorem Counted.in_use (h : Counted r held l) (hm : a ∈ l) (ha : held a = some k) : r k ≠ none := by
  intro hn
  have hc := h.count k
  have hp := holders_pos hm ha
  simp only [Refs.count,hn,getD_none] at hc
  omega

theorem count_reserve (hf : r k = none) (j : κ) :
    (r.reserve k).count j = r.count j + if k = j then 1 else 0 := by
  by_cases hj : k = j
  · subst hj
    simp [Refs.count,Refs.reserve,hf]
  · simp [Refs.count,Refs.reserve,hj,Ne.symm hj]

theorem count_get (hu : r k ≠ none) (j : κ) :
    (r.get k).count j = r.count j + if k = j then 1 else 0 := by
  obtain ⟨n,hr⟩ := ne_none_iff_exists'.mp hu
  by_cases hj : k = j
  · subst hj
    simp [Refs.count,Refs.get,hr]
  · simp [Refs.count,Refs.get,hj,Ne.symm hj]

theorem count_put (hu : 0 < r.count k) (j : κ) :
    (r.put k).count j + (if k = j then 1 else 0) = r.count j := by
  by_cases hj : k = j
  · subst hj
    cases hr : r k with
    | none => simp [Refs.count,hr] at hu
    | some n =>
      simp only [Refs.count,hr,getD_some] at hu
      simp only [Refs.count,Refs.put,if_true,hr,bind_some]
      split <;> simp only [getD_none,getD_some] <;> omega
  · simp [Refs.count,Refs.put,hj,Ne.symm hj]

section
variable {i : Nat} (h : Counted r held l) (ha : l[i]? = some a)
include h ha

theorem Counted.same (hb : held b = held a) : Counted r held (l.set i b) :=
  ⟨fun k => (h.count k).trans (holders_set_same ha hb k).symm,h.used⟩

theorem Counted.take (hn : held a = none)
    (hb : held b = some k) (hq : ∀ j,q.count j = r.count j + if k = j then 1 else 0)
    (hu : ∀ j,q j ≠ some 0) : Counted q held (l.set i b) := by
  refine ⟨fun j => ?_,hu⟩
  have hs := holders_set held ha b j
  simp only [hn,hb,some.injEq,reduceCtorEq,if_false] at hs
  rw [hq,h.count]
  exact hs.symm

theorem Counted.reserve (hf : r k = none)
    (hn : held a = none) (hb : held b = some k) : Counted (r.reserve k) held (l.set i b) := by
  refine h.take ha hn hb (count_reserve hf) ?_
  intro j
  unfold Refs.reserve
  split
  · simp
  · exact h.used j

theorem Counted.get (hu : r k ≠ none)
    (hn : held a = none) (hb : held b = some k) : Counted (r.get k) held (l.set i b) := by
  refine h.take ha hn hb (count_get hu) ?_
  obtain ⟨n,hr⟩ := ne_none_iff_exists'.mp hu
  intro j
  unfold Refs.get
  split
  · simp [hr]
  · exact h.used j

theorem Counted.put (hk : held a = some k) (hb : held b = none) :
    Counted (r.put k) held (l.set i b) := by
  have hp : 0 < r.count k := h.count k ▸ holders_pos (mem_of_getElem? ha) hk
  refine ⟨fun j => ?_,fun j => ?_⟩
  · have hs := holders_set held ha b j
    have hc := count_put hp j
    simp only [hk,hb,some.injEq,reduceCtorEq,if_false] at hs
    rw [h.count] at hc
    omega
  · unfold Refs.put
    split
    · cases hr : r k with
      | none => simp
      | some n =>
        simp only [bind_some]
        split <;> simp_all
    · exact h.used j

end

theorem put_free (hf : r k = none) : r.put k = r := by
  funext j
  unfold Refs.put
  split_ifs with hj
  · simp [hj,hf]
  · rfl

theorem put_in_use (hu : r j ≠ none) (hl : j = k → r k ≠ some 1) (h0 : r k ≠ some 0) :
    r.put k j ≠ none := by
  unfold Refs.put
  split_ifs with hj
  · subst hj
    obtain ⟨n,hr⟩ := ne_none_iff_exists'.mp hu
    have h1 := hl rfl
    rw [hr] at h0 h1
    simp only [ne_eq,some.injEq] at h0 h1
    simp only [hr,bind_some]
    rw [if_neg (by omega)]
    simp
  · exact hu

theorem get_in_use (hu : r j ≠ none) : r.get k j ≠ none := by
  unfold Refs.get
  split_ifs with hj
  · subst hj
    simpa using hu
  · exact hu

theorem reserve_in_use (hu : r j ≠ none) : r.reserve k j ≠ none := by
  unfold Refs.reserve
  split
  · simp
  · exact hu

end Mpss.Library.Counting
