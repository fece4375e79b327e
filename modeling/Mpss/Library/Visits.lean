import Mathlib.Algebra.Order.Ring.Int

namespace Mpss.Library.Visits
open List Function

/-- How many of the nodes a search has yet to visit. -/
def unvisited (nodes : List α) (visited : α → Bool) : Nat := nodes.countP (fun a => !visited a)

variable {nodes : List α} {v w : α → Bool} {a : α}

theorem unvisited_le (nodes : List α) (v : α → Bool) : unvisited nodes v ≤ nodes.length :=
    countP_le_length

theorem unvisited_mono (h : ∀ b,v b = true → w b = true) : unvisited nodes w ≤ unvisited nodes v := by
  apply countP_mono_left
  intro b _ hb
  cases hv : v b with
  | false => rfl
  | true =>
    rw [h b hv] at hb
    cases hb

theorem unvisited_lt (ha : a ∈ nodes) (hv : v a = false) (hw : w a = true)
    (h : ∀ b,v b = true → w b = true) : unvisited nodes w < unvisited nodes v := by
  induction nodes with
  | nil => cases ha
  | cons b bs ih =>
    have hr : unvisited bs w ≤ unvisited bs v := unvisited_mono h
    have hb := h b
    simp only [unvisited,countP_cons] at hr ih ⊢
    rcases mem_cons.mp ha with rfl | hm
    · simp only [hv,hw,Bool.not_false,Bool.not_true,if_true]
      simpa using Nat.lt_succ_of_le hr
    · have hlt := ih hm
      cases hvb : v b with
      | false => cases w b <;> simp <;> omega
      | true => simpa [hb hvb] using hlt

theorem unvisited_visit [DecidableEq α] (ha : a ∈ nodes) (hv : v a = false) :
    unvisited nodes (update v a true) < unvisited nodes v := by
  apply unvisited_lt ha hv (update_self a true v)
  intro b hb
  by_cases hab : b = a
  · rw [hab,update_self]
  · rwa [update_of_ne hab]

theorem length_filter_unvisited (h : ∀ b,p b = true → v b = false) :
    (nodes.filter p).length ≤ unvisited nodes v := by
  rw [← countP_eq_length_filter]
  apply countP_mono_left
  intro b _ hb
  rw [h b hb]
  rfl

end Mpss.Library.Visits
