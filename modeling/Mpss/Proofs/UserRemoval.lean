import Mpss.Micctrl.Users

namespace Mpss.Proofs.UserRemoval
open Mpssconfig.Miclist (Name)
open Micctrl.Users List

def firstField (line : Line) : Name := line.text.takeWhile (· ≠ ':')

/-- The lines that a removal should leave. -/
def without (name : Name) (lines : List Line) : List Line := lines.filter (firstField · ≠ name)

variable {tree : Tree} {atoi : Name → Nat} {name : Name} {lines : List Line}

theorem filter_eq_iff : lines.filter p = lines.filter q ↔ ∀ a ∈ lines,p a = q a := by
  refine ⟨?_,fun h => filter_congr h⟩
  intro h a ha
  have hm : a ∈ lines.filter p ↔ a ∈ lines.filter q := by rw [h]
  simp only [mem_filter,ha,true_and] at hm
  exact Bool.eq_iff_iff.mpr hm

def isUser (atoi : Name → Nat) (name : Name) (line : Line) : Bool :=
  (parsePwfile atoi line).any (·.user = name)

/-- No home of the user has the file at the path in its tree. -/
def spares (tree : Tree) (atoi : Name → Nat) (name : Name) (passwd : List Line) (path : Name) : Bool :=
  passwd.all (fun line => (parsePwfile atoi line).all
    (fun pw => pw.user ≠ name || !tree.holds (tree.base ++ pw.home) (tree.base ++ path)))

theorem remove_lines (r : Removal) :
    (lines.foldl (removeLine tree atoi name) r).ret =
    (if lines.any (isUser atoi name) then 0 else r.ret) ∧
    (lines.foldl (removeLine tree atoi name) r).passwd =
      (if spares tree atoi name lines "/etc/passwd".toList then r.passwd else none) ∧
    (lines.foldl (removeLine tree atoi name) r).copy =
      (if spares tree atoi name lines tree.tempname then
        r.copy.map (· ++ lines.filter (fun line => (parsePwfile atoi line).any (·.user ≠ name)))
          else none) ∧
    (lines.foldl (removeLine tree atoi name) r).shadow =
      if spares tree atoi name lines "/etc/shadow".toList then
        if lines.any (isUser atoi name) then r.shadow.map (removeFromShadow name) else r.shadow
      else none := by
  induction lines generalizing r with
  | nil => simp [spares]
  | cons line lines ih =>
    rw [foldl_cons]
    obtain ⟨h1,h2,h3,h4⟩ := ih (removeLine tree atoi name r line)
    rw [h1,h2,h3,h4]
    obtain h | ⟨pw,h⟩ := Option.eq_none_or_eq_some (parsePwfile atoi line)
    · simp [removeLine,isUser,spares,h]
    · by_cases he : pw.user = name
      · have hm : removeFromShadow name ∘ removeFromShadow name = removeFromShadow name := by
          funext file
          simp [removeFromShadow]
        refine ⟨by simp [removeLine,isUser,h,he],?_,?_,?_⟩
        all_goals
          simp only [removeLine,spares,all_cons,any_cons,filter_cons,h,he,Tree.deltree,ne_eq,
            not_true_eq_false,if_false,Option.all_some,decide_false,Bool.false_or]
          cases tree.holds _ _ <;> simp [hm,isUser,h,he]
      · simp [removeLine,isUser,spares,h,he,Function.comp_def]

theorem user_field (h : parsePwfile atoi line = some pw) : pw.user = firstField line := by
  simp only [parsePwfile,Option.bind_eq_bind,Option.bind_eq_some_iff] at h
  obtain ⟨r,hr,_,_,_,_,_,_,_,_,_,_,he⟩ := h
  obtain ⟨_,hr⟩ := Option.ite_none_right_eq_some.mp hr
  obtain ⟨_,he⟩ := Option.ite_none_right_eq_some.mp he
  cases he
  cases hr
  rfl

def UserRemoved (tree : Tree) (atoi : Name → Nat) (name : Name) (passwd shadow : List Line) : Prop :=
  (removeUser tree atoi name passwd shadow).ret = 0 →
    (removeUser tree atoi name passwd shadow).passwd = some (without name passwd) ∧
    (removeUser tree atoi name passwd shadow).shadow = some (without name shadow)

/-- The lines of others parse and, in the shadow file, do not begin with the name. -/
def Distinct (atoi : Name → Nat) (name : Name) (passwd shadow : List Line) : Prop :=
  (∀ line ∈ passwd,firstField line ≠ name → (parsePwfile atoi line).isSome) ∧
    ∀ line ∈ shadow,name <+: line.raw → firstField line = name

theorem kept_passwd_iff :
    lines.filter (fun line => (parsePwfile atoi line).any (·.user ≠ name)) = without name lines ↔
      ∀ line ∈ lines,firstField line ≠ name → (parsePwfile atoi line).isSome := by
  refine filter_eq_iff.trans (forall₂_congr ?_)
  intro line hl
  cases h : parsePwfile atoi line with
  | none => simp
  | some pw => simp [user_field h]

theorem kept_shadow_iff :
    removeFromShadow name lines = without name lines ↔ ∀ line ∈ lines,name <+: line.raw →
    firstField line = name := by
  refine filter_eq_iff.trans (forall₂_congr ?_)
  intro line _
  have hf : firstField line = name → name <+: line.raw := by
    rintro rfl
    exact ( takeWhile_prefix _).trans (prefix_append _ _)
  by_cases h : name <+: line.raw
  · simp [h]
  · simp [h,mt hf h]

theorem user_removed_iff (shadow : List Line) :
    UserRemoved tree atoi name lines shadow ↔
      ((∃ line ∈ lines,isUser atoi name line) → spares tree atoi name lines "/etc/passwd".toList →
        spares tree atoi name lines tree.tempname →
          Distinct atoi name lines shadow ∧ spares tree atoi name lines "/etc/shadow".toList) := by
  obtain ⟨h1,h2,h3,h4⟩ := @remove_lines tree atoi name lines ⟨2,some lines,some [],some shadow,none⟩
  unfold UserRemoved removeUser Distinct
  rw [← any_eq_true,← kept_passwd_iff,← kept_shadow_iff]
  generalize foldl _ _ _ = r at h1 h2 h3 h4 ⊢
  generalize lines.any (isUser atoi name) = found at h1 h4 ⊢
  generalize spares tree atoi name lines "/etc/passwd".toList = passwd at h2 ⊢
  generalize spares tree atoi name lines tree.tempname = copy at h3 ⊢
  generalize spares tree atoi name lines "/etc/shadow".toList = left at h4 ⊢
  cases found
  · simp [h1]
  · cases passwd <;> cases copy <;> cases left <;> simp_all [mpssutRename]

/-- A removal takes exactly the lines of the name when the others are distinct from it and no home
of the user has one of the files in its tree. -/
theorem removal_exact_iff (tree : Tree) (atoi : Name → Nat) (name : Name)
    (passwd shadow group : List Line) : UserRemoved tree atoi name passwd shadow ∧
      ((removeGroup name group).1 = 0 → (removeGroup name group).2 = without name group) ↔
    ((∃ line ∈ passwd,isUser atoi name line) → spares tree atoi name passwd "/etc/passwd".toList →
      spares tree atoi name passwd tree.tempname →
        Distinct atoi name passwd shadow ∧ spares tree atoi name passwd "/etc/shadow".toList) ∧
      ((∃ line ∈ group,':' ∈ line.text ∧ firstField line = name) →
        ∀ line ∈ group,firstField line ≠ name → ':' ∈ line.text) := by
  refine and_congr (user_removed_iff shadow) ?_
  have ha : (∃ line ∈ group,':' ∈ line.text ∧ firstField line = name) ↔
      group.any (fun line => (cut line.text).any (·.1 = name)) = true := by
    rw [any_eq_true]
    refine exists_congr (fun line => and_congr_right (fun _ => ?_))
    unfold cut
    split <;> simp_all [firstField]
  unfold removeGroup
  rw [ha]
  by_cases hu : group.any (fun line => (cut line.text).any (·.1 = name)) = true
  · simp only [hu,if_true,true_imp_iff]
    refine filter_eq_iff.trans (forall₂_congr ?_)
    intro line _
    unfold cut
    split <;> simp_all [firstField]
  · simp [hu]

def card : Tree := ⟨"/m".toList,"/etc/p".toList,(· <+: ·)⟩

/-- A user `ab` beside a user `abc`, and one whose home is the shadow file. -/
theorem longer_name_lost :
    ¬ UserRemoved card (fun _ => 0) ['a','b']
      [⟨"ab:x:1:1::/home/ab:/bin/sh".toList,true⟩,⟨"abc:x:2:2::/home/abc:/bin/sh".toList,true⟩]
      [⟨"ab:".toList,true⟩,⟨"abc:".toList,true⟩] ∧
    ¬ UserRemoved card (fun _ => 0) ['a'] [⟨"a:x:1:1::/etc/shadow:/".toList,true⟩]
      [⟨"a:".toList,true⟩,⟨"b:".toList,true⟩] := by
  constructor
  all_goals
    intro h
    have hs := (h (by decide)).2
    revert hs
    decide

end Mpss.Proofs.UserRemoval
