import Mathlib.Data.Char
import Mathlib.Data.List.Lex
import Mpss.Mpssconfig.FileTree

namespace Mpss.Proofs.TreeInsert
open Mpssconfig.Miclist Mpssconfig.FileTree List Option

def child (c : Name) : Tree → Option (Entry × Tree)
  | .nil => none
  | .cons e subdir next => if e.name = c then some (e,subdir) else child c next

/-- The entry at a path that leads through directories. -/
def find : List Name → Tree → Option Entry
  | [],_ => none
  | [c],t => (child c t).map Prod.fst
  | c :: part :: rest,t =>
    (child c t).bind fun cell => if cell.1.type = .dir then find (part :: rest) cell.2 else none

def names : Tree → List Name
  | .nil => []
  | .cons e _ next => e.name :: names next

/-- In every directory the names are ascending, and parts of paths. -/
def Ordered : Tree → Prop
  | .nil => True
  | .cons e subdir next => '/' ∉ e.name ∧ (∀ n ∈ names next,e.name < n) ∧ Ordered subdir ∧ Ordered next

theorem ordered_nil : Ordered .nil := trivial

variable {cur c : Name}

theorem child_none (h : ∀ n ∈ names t,cur < n) : child cur t = none := by
  induction t with
  | nil => rfl
  | cons e subdir next _ ih =>
    have hne : e.name ≠ cur := fun he => lt_irrefl _ (he ▸ h e.name mem_cons_self)
    rw [child,if_neg hne]
    exact ih (forall_mem_cons.mp h).2

theorem child_name (h : child c t = some (e,sub)) : e.name = c := by
  induction t with
  | nil => cases h
  | cons e' subdir next _ ih =>
    rw [child] at h
    split_ifs at h with hn
    · cases h
      exact hn
    · exact ih h

theorem Ordered.child (ho : Ordered t) (h : child c t = some (e,sub)) : '/' ∉ c ∧ Ordered sub := by
  induction t with
  | nil => cases h
  | cons e' subdir next _ ih =>
    obtain ⟨hs,-,hsb,hn⟩ := ho
    rw [TreeInsert.child] at h
    split_ifs at h with hnm
    · cases h
      exact ⟨hnm ▸ hs,hsb⟩
    · exact ih hn h

section AtName

variable {create : Option (Entry × Tree) × Outcome} {found : Entry → Tree → (Entry × Tree) × Outcome}

theorem child_linked (hx : x.1.name = cur) : child cur (linked (some x) t) = some x := by
  rw [linked,child,if_pos hx]

theorem child_linked_other (hc : c ≠ cur) (hx : ∀ y,x = some y → y.1.name = cur) :
    child c (linked x t) = child c t := by
  cases x with
  | none => rfl
  | some y =>
    rw [linked,child,if_neg]
    rw [hx y rfl]
    exact hc.symm

/-- What the loop does: it links a new entry in, or comes to the one that has the name. -/
theorem at_name_induction {motive : Tree → Tree × Outcome → Prop}
    (new : ∀ t,(Ordered t → ∀ n ∈ names t,cur < n) → motive t (linked create.1 t,create.2))
    (old : ∀ e subdir next,cur = e.name →
      motive (.cons e subdir next) (linked (some (found e subdir).1) next,(found e subdir).2))
    (behind : ∀ e subdir next r,e.name < cur → motive next r → motive (.cons e subdir next)
      (.cons e subdir r.1,r.2)) :
    motive t (atName cur create found t) := by
  induction t with
  | nil => exact new _ fun _ => forall_mem_nil _
  | cons e subdir next _ ih =>
    rw [atName]
    split
    · rename_i hb
      refine new _ fun ho n hn => ?_
      rcases mem_cons.mp hn with rfl | hn
      · exact hb
      · exact lt_trans hb (ho.2.1 n hn)
    · rename_i hb
      split_ifs with hn
      · exact old _ _ _ hn
      · exact behind _ _ _ _ (lt_of_le_of_ne (not_lt.mp hb) (Ne.symm hn)) ih

theorem at_name_unchanged (ho : Ordered t) (hnw : child cur t = none → create.1 = none)
    (hol : ∀ e s,child cur t = some (e,s) → (found e s).1 = (e,s)) :
    (atName cur create found t).1 = t := by
  revert ho hnw hol
  refine at_name_induction (motive := fun t r => Ordered t → (child cur t = none → create.1 = none) →
    (∀ e s,child cur t = some (e,s) → (found e s).1 = (e,s)) → r.1 = t) ?_ ?_ ?_
  · intro t hlt ho hnw _
    rw [hnw (child_none (hlt ho))]
    rfl
  · intro e subdir next hn _ _ hol
    rw [hol e subdir (by rw [child,if_pos hn.symm])]
    rfl
  · intro e subdir next r hlt ih ho hnw hol
    rw [child,if_neg hlt.ne] at hnw hol
    rw [ih ho.2.2.2 hnw hol]

variable (hcr : ∀ x,create.1 = some x → x.1.name = cur)
include hcr

theorem at_name_new (h : child cur t = none) :
    child cur (atName cur create found t).1 = create.1 ∧ (atName cur create found t).2 = create.2 := by
  revert h
  refine at_name_induction (motive := fun t r => child cur t = none → child cur r.1 = create.1 ∧
    r.2 = create.2) ?_ ?_ ?_
  · intro t _ h
    refine ⟨?_,rfl⟩
    cases hx : create.1 with
    | none => exact h
    | some x => exact child_linked (hcr x hx)
  · intro e subdir next hn h
    rw [child,if_pos hn.symm] at h
    cases h
  · intro e subdir next r hlt ih h
    rw [child,if_neg hlt.ne] at h ⊢
    exact ih h

variable (hf : ∀ e s,(found e s).1.1.name = e.name)
include hf

theorem at_name_other (hc : c ≠ cur) : child c (atName cur create found t).1 = child c t := by
  refine at_name_induction (motive := fun t r => child c r.1 = child c t) ?_ ?_ ?_
  · intro t _
    exact child_linked_other hc hcr
  · intro e subdir next hn
    have hk : ∀ y,some (found e subdir).1 = some y → y.1.name = cur := by
      intro y hy
      cases hy
      rw [hf,hn]
    rw [child_linked_other hc hk,child,if_neg fun he => hc (hn.trans he |>.symm)]
  · intro e subdir next r _ ih
    rw [child,child,ih]

theorem at_name_ordered (ho : Ordered t) (hsl : '/' ∉ cur) (hnw : ∀ x,create.1 = some x → Ordered x.2)
    (hol : ∀ e s,Ordered s → Ordered (found e s).1.2) : Ordered (atName cur create found t).1 := by
  refine (at_name_induction (motive := fun t r => Ordered t →
    Ordered r.1 ∧ ∀ n ∈ names r.1,n = cur ∨ n ∈ names t) ?_ ?_ ?_ ho).1
  · intro t hlt ho
    cases hx : create.1 with
    | none => exact ⟨ho,fun n hn => .inr hn⟩
    | some x =>
      obtain rfl := hcr x hx
      exact ⟨⟨hsl,hlt ho,hnw x hx,ho⟩,fun n hn => mem_cons.mp hn⟩
  · rintro e subdir next rfl ⟨he,hlt,hsb,hnx⟩
    refine ⟨⟨?_,?_,hol e subdir hsb,hnx⟩,fun n hn => .inr ?_⟩
    · rwa [hf]
    · rwa [hf]
    · rwa [linked,names,hf] at hn
  · rintro e subdir next r hb ih ⟨he,hlt,hsb,hnx⟩
    obtain ⟨hor,hn⟩ := ih hnx
    refine ⟨⟨he,fun n hr => ?_,hsb,hor⟩,fun n hr => ?_⟩
    · rcases hn n hr with rfl | hr
      · exact hb
      · exact hlt n hr
    · rcases mem_cons.mp hr with rfl | hr
      · exact .inr mem_cons_self
      · exact (hn n hr).imp_right (.tail _)

omit hcr

theorem at_name_found (ho : Ordered t) (h : child cur t = some (e,sub)) :
    child cur (atName cur create found t).1 = some (found e sub).1 ∧ (atName cur create found t).2 =
    (found e sub).2 := by
  revert ho h
  refine at_name_induction (motive := fun t r => Ordered t → child cur t = some (e,sub) →
    child cur r.1 = some (found e sub).1 ∧ r.2 = (found e sub).2) ?_ ?_ ?_
  · intro t hlt ho h
    rw [child_none (hlt ho)] at h
    cases h
  · intro e' subdir next hn _ h
    rw [child,if_pos hn.symm] at h
    cases h
    exact ⟨child_linked ((hf _ _).trans hn.symm),rfl⟩
  · intro e' subdir next r hlt ih ho h
    rw [child,if_neg hlt.ne] at h ⊢
    exact ih ho.2.2.2 h

end AtName

/-- An entry has what was inserted last at its path: the target for a link, the type and the numbers
for a device, those of its source if it has one. -/
structure Same (e new : Entry) : Prop where
  type : e.type = new.type
  source : e.source = new.source
  mode : e.mode = new.mode
  uid : e.uid = new.uid
  gid : e.gid = new.gid
  link : new.type = .link → e.link = new.link
  node : new.type = .dnode → e.inodeType = new.inodeType
  numbers : new.type = .dnode → new.uid ≠ -1 → e.major = new.major ∧ e.minor = new.minor

/-- What `overwrite_entry` leaves behind is what is inserted, and what it frees was set. -/
@[mk_iff] structure Keeps (new cur : Entry) : Prop where
  set : cur.unset = false
  link : new.type = .link → cur.link = new.link
  node : new.type = .dnode → cur.inodeType = new.inodeType
  numbers : new.type = .dnode → new.uid ≠ -1 → cur.major = new.major ∧ cur.minor = new.minor

variable {id : Int} {cs ds : List Name}

theorem overwrite_cases (id : Int) (new cur : Entry) :
    (∃ text,cur.type ≠ new.type ∧ overwriteEntry id new cur = (cur,some (.message text))) ∨
    (cur.type = new.type ∧ cur.unset = true ∧ overwriteEntry id new cur = (cur,some .badFree)) ∨
    (cur.type = new.type ∧ overwriteEntry id new cur = ({ cur with
      source := new.source,mode := new.mode,uid := new.uid,gid := new.gid,unset :=
        new.unset },none)) := by
  unfold overwriteEntry
  by_cases ht : cur.type = new.type
  · rw [if_neg (not_not.mpr ht)]
    by_cases hu : cur.unset = true
    · exact .inr (.inl ⟨ht,hu,if_pos hu⟩)
    · exact .inr (.inr ⟨ht,if_neg hu⟩)
  · exact .inl ⟨_,ht,if_pos ht⟩

theorem overwrite_name {new cur : Entry} : (overwriteEntry id new cur).1.name = cur.name := by
  obtain ⟨_,-,h⟩ | ⟨-,-,h⟩ | ⟨-,h⟩ := overwrite_cases id new cur <;> rw [h]

theorem overwrite_type {new cur : Entry} : (overwriteEntry id new cur).1.type = cur.type := by
  obtain ⟨_,-,h⟩ | ⟨-,-,h⟩ | ⟨-,h⟩ := overwrite_cases id new cur <;> rw [h]

theorem overwrite_same (hk : e.type = new.type → Keeps new e)
    (h : (overwriteEntry id new e).2 = none) : Same (overwriteEntry id new e).1 new := by
  obtain ⟨_,-,ho⟩ | ⟨-,-,ho⟩ | ⟨ht,ho⟩ := overwrite_cases id new e <;> rw [ho] at h ⊢
  · cases h
  · cases h
  · obtain ⟨-,hl,hnd,hn⟩ := hk ht
    exact ⟨ht,rfl,rfl,rfl,rfl,hl,hnd,hn⟩

theorem overwrite_refused (h : (overwriteEntry id new e).2 ≠ none) :
    (overwriteEntry id new e).1 = e := by
  obtain ⟨_,-,ho⟩ | ⟨-,-,ho⟩ | ⟨-,ho⟩ := overwrite_cases id new e <;> rw [ho] at h ⊢
  exact absurd rfl h

theorem overwrite_free (hk : e.type = new.type → Keeps new e) :
    (overwriteEntry id new e).2 ≠ some .badFree := by
  obtain ⟨_,-,h⟩ | ⟨ht,hu,-⟩ | ⟨-,h⟩ := overwrite_cases id new e
  · simp [h]
  · exact absurd ((hk ht).set.symm.trans hu) Bool.false_ne_true
  · simp [h]

/-- What is created for the last part of a path. -/
def leaf (id : Int) (new : Entry) (cur : Name) (m : Memory) : Option (Entry × Tree) × Outcome :=
  if m.next = false then (none,some (.message (noName id cur)))
    else (some ({ new with name := cur },.nil),none)

/-- What is created for another part, with all that is below it. -/
def branch (id : Int) (new : Entry) (cur : Name) (below : List Name)
    (m : Memory) : Option (Entry × Tree) × Outcome :=
  match allocAndFillMissingEntry id cur m with
  | .error text => (none,some (.message text))
  | .ok e =>
    (some (e,(insertList id new below (m.drop 2) .nil).1),(insertList id new below (m.drop 2) .nil).2)

/-- What is done with an entry that has the last part as its name, or another one. -/
def onto (id : Int) (new e : Entry) (subdir : Tree) : (Entry × Tree) × Outcome :=
  (((overwriteEntry id new e).1,subdir),(overwriteEntry id new e).2)

def under (id : Int) (new : Entry) (below : List Name) (m : Memory) (e : Entry)
    (subdir : Tree) : (Entry × Tree) × Outcome :=
  ((e,(insertList id new below m subdir).1),(insertList id new below m subdir).2)

theorem onto_name : ∀ e s,(onto id new e s).1.1.name = e.name := fun _ _ => overwrite_name

theorem under_name : ∀ e s,(under id new below m e s).1.1.name = e.name := fun _ _ => rfl

theorem insert_leaf (hc : cur ≠ []) : insertList id new [cur] m t = atName cur (leaf id new cur m)
    (onto id new) t := by
  rw [insertList,if_neg hc]
  rfl

theorem insert_branch :
    insertList id new (cur :: part :: rest) m t =
      atName cur (branch id new cur (part :: rest) m) (under id new (part :: rest) m) t := by rfl

theorem leaf_name : ∀ x,(leaf id new cur m).1 = some x → x.1.name = cur := by
  intro x hx
  unfold leaf at hx
  split at hx
  · cases hx
  · cases hx
    rfl

theorem branch_cases :
    (∃ text,branch id new cur below m = (none,some (.message text))) ∨
      branch id new cur below m =
        (some (missing cur,(insertList id new below (m.drop 2) .nil).1),
        (insertList id new below (m.drop 2) .nil).2) := by
  unfold branch allocAndFillMissingEntry
  by_cases h : m.next = false
  · exact .inl ⟨_,by rw [if_pos h]⟩
  · by_cases h' : Memory.next m.tail = false
    · exact .inl ⟨_,by rw [if_neg h,if_pos h']⟩
    · exact .inr (by rw [if_neg h,if_neg h'])

theorem branch_name : ∀ x,(branch id new cur below m).1 = some x → x.1.name = cur := by
  intro x hx
  obtain ⟨text,hb⟩ | hb := branch_cases
  · rw [hb] at hx
    cases hx
  · rw [hb] at hx
    cases hx
    rfl

theorem child_other (hc : c ≠ cur) : child c (insertList id new (cur :: cs) m t).1 = child c t := by
  cases cs with
  | nil =>
    by_cases hcr : cur = []
    · rw [insertList,if_pos hcr]
    · rw [insert_leaf hcr]
      exact at_name_other leaf_name onto_name hc
  | cons part rest => exact at_name_other branch_name under_name hc

theorem find_congr (h : child c t' = child c t) : find (c :: ds) t' = find (c :: ds) t := by
  cases ds with
  | nil | cons part rest => rw [find,find,h]

theorem find_below (h : child c t = some (e,sub)) (hd : e.type = .dir) :
    find (c :: part :: rest) t = find (part :: rest) sub := by rw [find,h,bind_some,if_pos hd]

theorem find_nil : find cs .nil = none := by
  match cs with
  | [] | [_] | _ :: _ :: _ => rfl

/-- The entries on the way of a path are directories. -/
def Through (cs : List Name) (t : Tree) : Prop :=
  ∀ ds,ds <+: cs → ds ≠ cs → ∀ e,find ds t = some e → e.type = .dir

theorem through_nil : Through cs .nil := fun ds _ _ e he => by simp [find_nil] at he

theorem Through.below (h : Through (c :: part :: rest) t) (hc : child c t = some (e,sub)) :
    e.type = .dir ∧ Through (part :: rest) sub := by
  have hd : e.type = .dir := by
    refine h [c] ⟨part :: rest,rfl⟩ (by simp) e ?_
    rw [find,hc,map_some]
  refine ⟨hd,?_⟩
  intro ds hp hne e' he
  cases ds with
  | nil => cases he
  | cons p r =>
    refine h (c :: p :: r) ?_ ?_ e' ?_
    · exact List.cons_prefix_cons.mpr ⟨rfl,hp⟩
    · exact fun heq => hne (cons_eq_cons.mp heq).2
    · rw [find_below hc hd]
      exact he

theorem insert_list_empty (hm : ∀ b ∈ m,b = true) : (insertList id new cs m .nil).2 = none := by
  induction cs generalizing m with
  | nil => rfl
  | cons cur cs ih =>
    have hn : ∀ m : Memory,(∀ b ∈ m,b = true) → m.next ≠ false := by
      intro m hm
      cases m with
      | nil => decide
      | cons b m =>
        show b ≠ false
        rw [hm b mem_cons_self]
        decide
    cases cs with
    | nil =>
      by_cases hc : cur = []
      · rw [insertList,if_pos hc]
      · rw [insert_leaf hc]
        show (leaf id new cur m).2 = none
        rw [leaf,if_neg (hn m hm)]
    | cons part rest =>
      show (branch id new cur (part :: rest) m).2 = none
      rw [branch,allocAndFillMissingEntry,if_neg (hn m hm),if_neg
        (hn _ fun b hb => hm b (mem_of_mem_tail hb))]
      exact ih fun b hb => hm b (mem_of_mem_drop hb)

theorem leaf_new (hc : cur ≠ []) (h : child cur t = none) :
    child cur (insertList id new [cur] m t).1 = (leaf id new cur m).1 ∧
      (insertList id new [cur] m t).2 = (leaf id new cur m).2 := by
  rw [insert_leaf hc]
  exact at_name_new leaf_name h

theorem branch_new (h : child cur t = none) :
    child cur (insertList id new (cur :: part :: rest) m t).1 = (branch id new cur
      (part :: rest) m).1 ∧
      (insertList id new (cur :: part :: rest) m t).2 = (branch id new cur (part :: rest) m).2 :=
  at_name_new branch_name h

section
variable (ho : Ordered t)
include ho

theorem leaf_found (hc : cur ≠ []) (h : child cur t = some (e,sub)) :
    child cur (insertList id new [cur] m t).1 = some ((overwriteEntry id new e).1,sub) ∧
      (insertList id new [cur] m t).2 = (overwriteEntry id new e).2 := by
  rw [insert_leaf hc]
  exact at_name_found onto_name ho h

theorem branch_found (h : child cur t = some (e,sub)) :
    child cur (insertList id new (cur :: part :: rest) m t).1 =
      some (e,(insertList id new (part :: rest) m sub).1) ∧
      (insertList id new (cur :: part :: rest) m t).2 = (insertList id new (part :: rest) m sub).2 :=
  at_name_found under_name ho h

theorem insert_list_other (hne : ds ≠ cs) (h : find ds t = some e) :
    find ds (insertList id new cs m t).1 = some e := by
  induction cs generalizing t ds m with
  | nil => exact h
  | cons cur cs ih =>
    match ds with
    | [] => cases h
    | d :: ds =>
      by_cases hd : d = cur
      case neg =>
        rw [find_congr (child_other hd)]
        exact h
      subst hd
      cases cs with
      | nil =>
        by_cases hc : d = []
        · rw [insertList,if_pos hc]
          exact h
        cases ds with
        | nil => exact absurd rfl hne
        | cons part rest =>
          obtain ⟨⟨e0,sub⟩,hch,hb⟩ := bind_eq_some_iff.mp h
          rw [find,(leaf_found ho hc hch).1,bind_some,overwrite_type]
          exact hb
      | cons part rest =>
        cases ds with
        | nil =>
          obtain ⟨⟨e0,sub⟩,hch,he⟩ := map_eq_some_iff.mp h
          rw [find,(branch_found ho hch).1,map_some]
          exact congrArg some he
        | cons part' rest' =>
          obtain ⟨⟨e0,sub⟩,hch,hb⟩ := bind_eq_some_iff.mp h
          rw [find,(branch_found ho hch).1,bind_some]
          obtain ⟨hdi,hb⟩ := ite_none_right_eq_some.mp hb
          rw [if_pos hdi]
          refine ih (ho.child hch).2 (fun heq => hne ?_) hb
          rw [heq]

/-- A path that leads through directories to a part that is not empty gets what is inserted. -/
theorem insert_list_self (hcs : cs ≠ []) (hl : cs.getLast? ≠ some []) (hd : Through cs t)
    (hk : ∀ e,find cs t = some e → e.type = new.type → Keeps new e)
    (h : (insertList id new cs m t).2 = none) :
    ∃ e,find cs (insertList id new cs m t).1 = some e ∧ Same e new := by
  induction cs generalizing t m with
  | nil => exact absurd rfl hcs
  | cons cur cs ih =>
    cases cs with
    | nil =>
      have hc : cur ≠ [] := fun hc => hl (by rw [hc,List.getLast?_singleton])
      cases hch : child cur t with
      | none =>
        obtain ⟨hn,hot⟩ := leaf_new hc hch
        rw [hot,leaf] at h
        rw [find,hn,leaf]
        split at h
        · cases h
        · rename_i hm
          rw [if_neg hm]
          exact ⟨_,rfl,rfl,rfl,rfl,rfl,rfl,fun _ => rfl,fun _ => rfl,fun _ _ => ⟨rfl,rfl⟩⟩
      | some cell =>
        obtain ⟨e,sub⟩ := cell
        have hol : find [cur] t = some e := by rw [find,hch,map_some]
        obtain ⟨hn,hot⟩ := leaf_found ho hc hch
        rw [hot] at h
        rw [find,hn]
        exact ⟨_,rfl,overwrite_same (hk e hol) h⟩
    | cons part rest =>
      have hl' : (part :: rest).getLast? ≠ some [] := by exact hl
      cases hch : child cur t with
      | none =>
        obtain ⟨hn,hot⟩ := branch_new hch
        rw [hot] at h
        obtain ⟨text,hb⟩ | hb := branch_cases
        · rw [hb] at h
          cases h
        · rw [hb] at h hn
          obtain ⟨e,he,hs⟩ := ih ordered_nil (cons_ne_nil _ _) hl' through_nil
            (fun e he => by simp [find_nil] at he) h
          refine ⟨e,?_,hs⟩
          rw [find_below hn rfl]
          exact he
      | some cell =>
        obtain ⟨hn,hot⟩ := branch_found ho hch
        rw [hot] at h
        obtain ⟨hdi,hd'⟩ := hd.below hch
        rw [find_below hch hdi] at hk
        obtain ⟨e,he,hs⟩ := ih (ho.child hch).2 (cons_ne_nil _ _) hl' hd' hk h
        refine ⟨e,?_,hs⟩
        rw [find_below hn hdi]
        exact he

theorem insert_list_free (hd : Through cs t)
    (hk : ∀ e,find cs t = some e → e.type = new.type → Keeps new e) :
    (insertList id new cs m t).2 ≠ some .badFree := by
  induction cs generalizing t m with
  | nil => simp [insertList]
  | cons cur cs ih =>
    cases cs with
    | nil =>
      by_cases hc : cur = []
      · simp [insertList,hc]
      cases hch : child cur t with
      | none =>
        rw [(leaf_new hc hch).2,leaf]
        split <;> simp
      | some cell =>
        rw [(leaf_found ho hc hch).2]
        refine overwrite_free (hk _ ?_)
        rw [find,hch,map_some]
    | cons part rest =>
      cases hch : child cur t with
      | none =>
        rw [(branch_new hch).2]
        obtain ⟨text,hb⟩ | hb := branch_cases
        · rw [hb]
          simp
        · rw [hb]
          exact ih ordered_nil through_nil (fun e he => by simp [find_nil] at he)
      | some cell =>
        obtain ⟨hdi,hd'⟩ := hd.below hch
        rw [(branch_found ho hch).2]
        rw [find_below hch hdi] at hk
        exact ih (ho.child hch).2 hd' hk

/-- What is refused was not done, unless the memory ran out below a new directory. -/
theorem insert_list_refused (hm : ∀ b ∈ m.drop 2,b = true)
    (h : (insertList id new cs m t).2 ≠ none) : (insertList id new cs m t).1 = t := by
  induction cs generalizing t with
  | nil => rfl
  | cons cur cs ih =>
    cases cs with
    | nil =>
      by_cases hc : cur = []
      · rw [insertList,if_pos hc]
      rw [insert_leaf hc]
      refine at_name_unchanged ho (fun hch => ?_) (fun e sub hch => ?_)
      · rw [(leaf_new hc hch).2] at h
        unfold leaf at h ⊢
        split_ifs at h with hmm
        · rw [if_pos hmm]
        · exact absurd rfl h
      · rw [(leaf_found ho hc hch).2] at h
        rw [onto,overwrite_refused h]
    | cons part rest =>
      rw [insert_branch]
      refine at_name_unchanged ho (fun hch => ?_) (fun e sub hch => ?_)
      · rw [(branch_new hch).2] at h
        obtain ⟨text,hb⟩ | hb := branch_cases
        · rw [hb]
        · rw [hb] at h
          exact absurd (insert_list_empty hm) h
      · rw [(branch_found ho hch).2] at h
        rw [under,ih (ho.child hch).2 h]

theorem insert_list_ordered (hs : ∀ c ∈ cs,'/' ∉ c) : Ordered (insertList id new cs m t).1 := by
  induction cs generalizing t m with
  | nil => exact ho
  | cons cur cs ih =>
    have hcr := hs cur mem_cons_self
    have hr : ∀ c ∈ cs,'/' ∉ c := (forall_mem_cons.mp hs).2
    cases cs with
    | nil =>
      by_cases hc : cur = []
      · rw [insertList,if_pos hc]
        exact ho
      rw [insert_leaf hc]
      refine at_name_ordered leaf_name onto_name ho hcr (fun x hx => ?_) (fun e s hs => hs)
      unfold leaf at hx
      split at hx
      · cases hx
      · cases hx
        trivial
    | cons part rest =>
      rw [insert_branch]
      refine at_name_ordered branch_name under_name ho hcr (fun x hx => ?_) (fun e s hs => ih hs hr)
      obtain ⟨text,hb⟩ | hb := branch_cases
      · rw [hb] at hx
        cases hx
      · rw [hb] at hx
        cases hx
        exact ih ordered_nil hr

end

end Mpss.Proofs.TreeInsert
