import Mpss.Micctrl.Users

namespace Mpss.Proofs.UserMerge
open Mpssconfig.Miclist (Name)
open Micctrl.Users List

def Apart (a b : Micuser) : Prop := ¬ (a.user = b.user ∨ a.uid = b.uid)

instance : DecidableRel Apart := fun _ _ => inferInstanceAs (Decidable (¬ _))

/-- A user of the host is appended when no earlier entry has its name or its uid. -/
def merged (ulist hosts : List Micuser) : List Micuser :=
  hosts.foldl (fun l h => if ∀ a ∈ l,Apart a h then l ++ [h] else l) ulist

/-- The list is walked forward once, past `pre`: a user with a conflict has one from there on, and
one without moves to the last entry. -/
def Walk : List Micuser → List Micuser → List Micuser → Prop
  | [],_,_ => True
  | h :: hosts,pre,ulist =>
    (∃ p u q,ulist = p ++ u :: q ∧ ¬ Apart u h ∧ Walk hosts (pre ++ p) (u :: q)) ∨
      ∃ p u,ulist = p ++ [u] ∧ (∀ a ∈ pre ++ ulist,Apart a h) ∧ Walk hosts (pre ++ p) [u,h]

variable {pre ulist hosts l : List Micuser}

theorem Walk.earlier (hw : Walk hosts (pre ++ p) ulist) : Walk hosts pre (p ++ ulist) := by
  cases hosts with
  | nil => trivial
  | cons h hosts =>
    rcases hw with ⟨q,u,r,rfl,hc,hw⟩ | ⟨q,u,rfl,hf,hw⟩
    · exact .inl ⟨p ++ q,u,r,(append_assoc _ _ _).symm,hc,append_assoc pre p q ▸ hw⟩
    · exact .inr ⟨p ++ q,u,(append_assoc _ _ _).symm,append_assoc pre p _ ▸ hf,
        append_assoc pre p q ▸ hw⟩

def walked (hosts pre ulist : List Micuser) : List Micuser :=
  let r := hosts.foldl (fun r h => placeUser h r.1 r.2) (pre,ulist)
  r.1 ++ r.2

theorem merged_append (hosts l : List Micuser) : ∃ s,merged l hosts = l ++ s := by
  induction hosts generalizing l with
  | nil => exact ⟨[],by simp [merged]⟩
  | cons h hosts ih =>
    unfold merged at ih ⊢
    rw [foldl_cons]
    split
    · obtain ⟨s,hs⟩ := ih (l ++ [h])
      exact ⟨h :: s,by simp [hs]⟩
    · exact ih l

theorem append_apart (hl : l.Pairwise Apart) (hf : ∀ a ∈ l,Apart a h) : (l ++ [h]).Pairwise Apart :=
  pairwise_append.mpr ⟨hl,pairwise_singleton _ _,fun a ha _ hb => mem_singleton.mp hb ▸ hf a ha⟩

theorem merged_apart (hl : l.Pairwise Apart) : (merged l hosts).Pairwise Apart := by
  induction hosts generalizing l with
  | nil => exact hl
  | cons h hosts ih =>
    unfold merged at ih ⊢
    rw [foldl_cons]
    split_ifs with hf
    · exact ih (append_apart hl hf)
    · exact ih hl

theorem placed (h : Micuser) (pre : List Micuser) (hn : ulist ≠ []) :
    ∃ p u q,ulist = p ++ u :: q ∧ (∀ a ∈ p,Apart a h) ∧
      (¬ Apart u h ∧ placeUser h pre ulist = (pre ++ p,u :: q) ∨
        Apart u h ∧ q = [] ∧ placeUser h pre ulist = (pre ++ p,[u,h])) := by
  induction ulist generalizing pre with
  | nil => exact absurd rfl hn
  | cons u q ih =>
    by_cases hc : Apart u h
    · by_cases hq : q = []
      · exact ⟨[],u,q,rfl,forall_mem_nil _,.inr ⟨hc,hq,by simp [placeUser,hq,if_neg hc]⟩⟩
      · obtain ⟨p,v,q',rfl,hp,hr⟩ := ih (pre ++ [u]) hq
        refine ⟨u :: p,v,q',rfl,forall_mem_cons.mpr ⟨hc,hp⟩,?_⟩
        rw [placeUser,if_neg hc,if_neg hq]
        simpa using hr
    · exact ⟨[],u,q,rfl,forall_mem_nil _,.inl ⟨hc,by simp [placeUser,not_not.mp hc]⟩⟩

theorem merged_cons (l : List Micuser) :
    merged l (h :: hosts) = merged (if ∀ a ∈ l,Apart a h then l ++ [h] else l) hosts := rfl

theorem walked_iff (hn : ulist ≠ []) :
    (∃ s,walked hosts pre ulist = pre ++ ulist ++ s) ∧
      ((pre ++ ulist).Pairwise Apart →
        (walked hosts pre ulist = merged (pre ++ ulist) hosts ↔ Walk hosts pre ulist)) := by
  induction hosts generalizing pre ulist with
  | nil => exact ⟨⟨[],by simp [walked]⟩,fun _ => iff_of_true rfl trivial⟩
  | cons h hosts ih =>
    obtain ⟨p,u,q,rfl,hp,⟨hc,hr⟩ | ⟨hc,rfl,hr⟩⟩ := placed h pre hn
    · obtain ⟨hs,hi⟩ := @ih (pre ++ p) (u :: q) (cons_ne_nil _ _)
      rw [append_assoc] at hs hi
      have hw : walked (h :: hosts) pre (p ++ u :: q) = walked hosts (pre ++ p)
        (u :: q) := by simp [walked,hr]
      rw [hw,merged_cons,if_neg (fun hf => hc (hf u (by simp)))]
      refine ⟨hs,fun hl => (hi hl).trans ⟨fun hw => .inl ⟨p,u,q,rfl,hc,hw⟩,?_⟩⟩
      rintro (⟨p',u',q',he,hc',hw⟩ | ⟨_,_,_,hf,_⟩)
      · rcases append_eq_append_iff.mp he with ⟨a,rfl,ha⟩ | ⟨a,rfl,ha⟩
        · rw [ha]
          rw [← append_assoc] at hw
          exact hw.earlier
        cases a with
        | nil =>
          cases ha
          simpa using hw
        | cons x a =>
          cases ha
          exact absurd (hp u' (by simp)) hc'
      · exact absurd (hf u (by simp)) hc
    · obtain ⟨⟨s,hs⟩,hi⟩ := @ih (pre ++ p) [u,h] (cons_ne_nil _ _)
      have hl : pre ++ p ++ [u,h] = pre ++ (p ++ [u]) ++ [h] := by simp
      rw [hl] at hs hi
      have hw : walked (h :: hosts) pre (p ++ [u]) = walked hosts (pre ++ p)
        [u,h] := by simp [walked,hr]
      rw [hw,merged_cons]
      refine ⟨⟨h :: s,by simp [hs]⟩,fun hl => ?_⟩
      split_ifs with hf
      · rw [hi (append_apart hl hf)]
        refine ⟨fun hw => .inr ⟨p,u,rfl,hf,hw⟩,?_⟩
        rintro (⟨p',u',q',he,hc',_⟩ | ⟨p',u',he,_,hw⟩)
        · exact absurd (hf u' (by simp [he])) hc'
        · obtain ⟨rfl,hu⟩ := append_inj' he rfl
          cases hu
          exact hw
      · refine iff_of_false ?_ ?_
        · intro he
          have ha := @merged_apart hosts _ hl
          rw [← he,hs] at ha
          exact hf (fun a ha' => (pairwise_append.mp (pairwise_append.mp ha).1).2.2 a ha' h
            mem_cons_self)
        · rintro (⟨p',u',q',he,hc',_⟩ | ⟨_,_,_,hf',_⟩)
          · have hq : u' ∈ p ++ [u] := by simp [he]
            exact hc' (forall_mem_append.mpr ⟨hp,forall_mem_singleton.mpr hc⟩ u' hq)
          · exact hf hf'

theorem walked_nil : walked hosts [] [] = [] := by
  induction hosts with
  | nil => rfl
  | cons h hosts ih => exact ih

/-- The users of the host are merged without conflicts where they can be met in the order of the
list. -/
theorem users_merged_iff (atoi : Name → Nat) (minUid : Nat) (hpw : List Line)
    (ho : ulist.Pairwise Apart) :
    genUsersFromHost atoi minUid ulist hpw = merged ulist (hostUsers atoi minUid hpw) ∧
      (genUsersFromHost atoi minUid ulist hpw).Pairwise Apart ↔
      Walk (hostUsers atoi minUid hpw) [] ulist := by
  rw [and_iff_left_of_imp (fun h => h ▸ merged_apart ho)]
  change walked _ [] ulist = _ ↔ _
  generalize hostUsers atoi minUid hpw = hosts
  rcases eq_or_ne ulist [] with rfl | hn
  · rw [walked_nil]
    cases hosts with
    | nil => exact iff_of_true rfl trivial
    | cons h hosts =>
      obtain ⟨s,hs⟩ := merged_append hosts [h]
      exact iff_of_false (fun he => by cases he.trans hs) (by simp [Walk])
  · exact (walked_iff hn).2 ho

def decimal (s : Name) : Nat := s.foldl (fun n c => 10 * n + (c.toNat - 48)) 0

/-- The host has `a`, which the card has, and then a new user `n`. -/
theorem new_user_merged :
    (genUsersFromHost decimal 500 [⟨['a'],500,1,[],[],[]⟩,⟨['b'],501,1,[],[],[]⟩]
      [⟨"a:x:500:1:::".toList,true⟩,⟨"n:x:502:1:::".toList,true⟩]).Pairwise Apart := by
  refine ((users_merged_iff _ _ _ (by decide)).mpr ?_).2
  exact .inl ⟨[],_,_,rfl,by decide,.inr ⟨[_],_,rfl,by decide,trivial⟩⟩

/-- The host has `a` behind a new user `n`, and the card has `a` and `b`. -/
theorem passed_user_added :
    ¬ (genUsersFromHost decimal 500 [⟨['a'],500,1,[],[],[]⟩,⟨['b'],501,1,[],[],[]⟩]
    [⟨"n:x:502:1:::".toList,true⟩,⟨"a:x:500:1:::".toList,true⟩]).Pairwise Apart := by decide

end Mpss.Proofs.UserMerge
