import Mathlib.Data.List.Nodup

namespace Mpss.Library.Chains
open List

/-- The cells from a root along their links, up to the link that ends a list. -/
inductive Path (next : κ → κ) (stop : κ) : κ → List κ → Prop
  | nil : Path next stop stop []
  | cons (i : κ) (l : List κ) (live : i ≠ stop) (tail : Path next stop (next i) l) :
      Path next stop i (i :: l)

variable {next other : κ → κ} {stop i p r : κ} {l pre post : List κ}

theorem Path.unique (hx : Path next stop r l) (hy : Path next stop r l') : l = l' := by
  induction hx generalizing l' with
  | nil =>
    cases hy with
    | nil => rfl
    | cons _ _ live => exact absurd rfl live
  | cons i l live tail ih =>
    cases hy with
    | nil => exact absurd rfl live
    | cons _ _ _ tail' => rw [ih tail']

theorem Path.root (h : Path next stop r (i :: l)) : r = i := by
  cases h with
  | cons => rfl

theorem Path.tail (h : Path next stop r (i :: l)) : Path next stop (next i) l := by
  cases h with
  | cons _ _ _ tail => exact tail

theorem Path.ended (h : Path next stop r []) : r = stop := by
  cases h with
  | nil => rfl

theorem Path.first (h : Path next stop r (pre ++ post)) (hne : pre ≠ []) : r ∈ pre := by
  cases pre with
  | nil => exact absurd rfl hne
  | cons a pre =>
    rw [h.root]
    exact mem_cons_self

theorem Path.suffix (h : Path next stop r (pre ++ i :: post)) : Path next stop i (i :: post) := by
  induction pre generalizing r with
  | nil =>
    cases h with
    | cons _ _ live tail => exact .cons i post live tail
  | cons a pre ih =>
    cases h with
    | cons _ _ _ tail => exact ih tail

theorem Path.behind (h : Path next stop r (pre ++ i :: post)) : Path next stop (next i) post :=
    h.suffix.tail

section
variable (h : Path next stop r l)
include h

theorem Path.start : r = stop ∨ r ∈ l := by
  cases h with
  | nil => exact .inl rfl
  | cons i l => exact .inr mem_cons_self

theorem Path.same_root (h' : Path other stop r' l) : r = r' := by
  cases l with
  | nil => rw [h.ended,h'.ended]
  | cons a l => rw [h.root,h'.root]

theorem Path.nodup : l.Nodup := by
  induction h with
  | nil => exact nodup_nil
  | cons i l live tail ih =>
    refine nodup_cons.mpr ⟨?_,ih⟩
    intro hm
    obtain ⟨pre,post,rfl⟩ := append_of_mem hm
    have he := (Path.cons i _ live tail).unique tail.suffix
    have hl := congrArg length he
    simp only [length_cons,length_append] at hl
    omega

theorem Path.live : ∀ j ∈ l,j ≠ stop := by
  induction h with
  | nil => simp
  | cons i l live tail ih => exact forall_mem_cons.mpr ⟨live,ih⟩

theorem Path.congr (ho : ∀ j ∈ l,other j = next j) : Path other stop r l := by
  induction h with
  | nil => exact .nil
  | cons i l live tail ih =>
    refine .cons i l live ?_
    rw [ho i mem_cons_self]
    exact ih (forall_mem_cons.mp ho).2

end

/-- Linking a cell to another list replaces what comes behind it. -/
theorem Path.relink (h : Path next stop r (pre ++ p :: post)) (ho : ∀ j ∈ pre,other j = next j)
    (hp : Path other stop (other p) post') : Path other stop r (pre ++ p :: post') := by
  induction pre generalizing r with
  | nil =>
    cases h with
    | cons _ _ live tail => exact .cons p post' live hp
  | cons a pre ih =>
    cases h with
    | cons _ _ live tail =>
      refine .cons a _ live ?_
      rw [ho a mem_cons_self]
      exact ih tail (forall_mem_cons.mp ho).2

theorem Path.insert (h : Path next stop r (pre ++ p :: post)) (ht : t ≠ stop)
    (ho : ∀ j ∈ pre ++ post,other j = next j) (hp : other p = t) (htn : other t = next p) :
    Path other stop r (pre ++ p :: t :: post) := by
  refine h.relink (fun j hj => ho j (mem_append_left post hj)) ?_
  rw [hp]
  refine .cons t post ht ?_
  rw [htn]
  exact h.behind.congr (fun j hj => ho j (mem_append_right pre hj))

def walk [DecidableEq κ] (next : κ → κ) (stop : κ) : Nat → κ → List κ
  | 0,_ => []
  | n + 1,i => if i = stop then [] else i :: walk next stop n (next i)

theorem Path.walk [DecidableEq κ] (h : Path next stop r l) (hn : l.length ≤ n) :
    walk next stop n r = l := by
  induction h generalizing n with
  | nil => cases n <;> simp [Chains.walk]
  | cons i l live tail ih =>
    cases n with
    | zero => simp at hn
    | succ n => rw [Chains.walk,if_neg live,ih (Nat.le_of_succ_le_succ hn)]

end Mpss.Library.Chains
