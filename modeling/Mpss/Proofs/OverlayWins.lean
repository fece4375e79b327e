import Mpss.Library.Runs
import Mpss.Proofs.CpioExact
import Mpss.Proofs.TreeInsert

namespace Mpss.Proofs.OverlayWins
open Library.Runs Mpssconfig.Miclist Mpssconfig.FileTree Mpssconfig.Cpio CpioExact TreeInsert
  List Function Option

/-- The entries that `follow_dir` comes to, each with the leader it has there. -/
def emitted : Tree → Name → List (Name × Entry)
  | .nil,_ => []
  | .cons e subdir next,leader =>
    (leader,e) :: ((if e.type = .dir then emitted subdir (leader ++ '/' :: e.name) else []) ++
      emitted next leader)

/-- The entry is written by the function for its type. -/
def genEntry (env : Env) (o : Out) (n : Name × Entry) : Out :=
  match n.2.type with
  | .dir => genDir env n.2 n.1 o
  | .file => genFile env n.2 n.1 o
  | .link => genSlink env n.2 n.1 o
  | .dnode => genNode env n.2 n.1 o
  | .pipe => genPipe env n.2 n.1 o
  | .sock => genSock env n.2 n.1 o

variable {env : Env} {t : Tree} {leader : Name} {o : Out} {n n' : Name × Entry}
  {cs ds : List Name} {e x : Entry}

theorem follow_emitted (hm : ∀ k,env.malloc k = true) :
    followDir env t leader o = (emitted t leader).foldl (genEntry env) o := by
  induction t generalizing leader o with
  | nil => rfl
  | cons e subdir next ihs ihn =>
    cases ht : e.type with
    | dir => simp only [followDir,ht,hm,if_true,emitted,foldl_cons,foldl_append,genEntry,ihs,ihn]
    | file | link | dnode | pipe | sock => simp [followDir,ht,emitted,genEntry,ihn]

def spell (ds : List Name) : Name := ds.flatMap (fun d => '/' :: d)

theorem spell_split (hcs : cs ≠ []) (hs : ∀ c ∈ cs,'/' ∉ c) :
    ((spell cs).drop 1).splitOn '/' = cs := by
  have hj : ∀ (cs : List Name) (c : Name),spell (c :: cs) = '/' :: ['/'].intercalate (c :: cs) := by
    intro cs
    induction cs with
    | nil =>
      intro c
      simp [spell]
    | cons d cs ih =>
      intro c
      have hc : spell (c :: d :: cs) = '/' :: c ++
        spell (d :: cs) := by rw [spell,flatMap_cons,← spell]
      rw [hc,ih d]
      simp [intercalate]
  cases cs with
  | nil => exact absurd rfl hcs
  | cons c cs =>
    rw [hj,drop_one,tail_cons]
    exact splitOn_intercalate '/' hs hcs

theorem spell_append : spell (ds ++ [c]) = spell ds ++ '/' :: c := by
  rw [spell,flatMap_append,flatMap_singleton,← spell]

theorem find_cons (h : child c t = some (e,sub)) (hd : e.type = .dir) (hcs : cs ≠ []) :
    find (c :: cs) t = find cs sub := by
  cases cs with
  | nil => exact absurd rfl hcs
  | cons part rest => exact find_below h hd

theorem find_split (h : find (c :: cs) t = some x) :
    ∃ e sub,child c t = some (e,sub) ∧ ((cs = [] ∧ x = e) ∨
    (cs ≠ [] ∧ e.type = .dir ∧ find cs sub = some x)) := by
  cases cs with
  | nil =>
    obtain ⟨⟨e,sub⟩,hc,he⟩ := map_eq_some_iff.mp h
    exact ⟨e,sub,hc,.inl ⟨rfl,he.symm⟩⟩
  | cons part rest =>
    obtain ⟨⟨e,sub⟩,hc,he⟩ := bind_eq_some_iff.mp h
    split at he
    · rename_i hd
      exact ⟨e,sub,hc,.inr ⟨cons_ne_nil _ _,hd,he⟩⟩
    · cases he

theorem find_parts (ho : Ordered t) (h : find cs t = some x) :
    (∀ c ∈ cs,'/' ∉ c) ∧ ∃ ds,cs = ds ++ [x.name] := by
  induction cs generalizing t with
  | nil => cases h
  | cons c cs ih =>
    obtain ⟨e,sub,hc,⟨rfl,rfl⟩ | ⟨-,-,hr⟩⟩ := find_split h
    · obtain ⟨hs,-⟩ := ho.child hc
      refine ⟨fun d hd => ?_,[],?_⟩
      · rw [mem_singleton.mp hd]
        exact hs
      · rw [child_name hc,nil_append]
    · obtain ⟨hs,hsb⟩ := ho.child hc
      obtain ⟨ha,ds,hds⟩ := ih hsb hr
      refine ⟨forall_mem_cons.mpr ⟨hs,ha⟩,c :: ds,?_⟩
      rw [hds,cons_append]

theorem child_mem (h : child c t = some cell) : c ∈ names t := by
  induction t with
  | nil => cases h
  | cons e subdir next _ ih =>
    rw [child] at h
    split_ifs at h with hn
    · rw [← hn]
      exact mem_cons_self
    · exact .tail _ (ih h)

theorem find_of_emitted (ho : Ordered t) (h : n ∈ emitted t leader) :
    ∃ ds,n.1 = leader ++ spell ds ∧ find (ds ++ [n.2.name]) t = some n.2 := by
  induction t generalizing leader with
  | nil => cases h
  | cons e subdir next ihs ihn =>
    obtain ⟨-,hlt,hsb,hn⟩ := ho
    have hs : child e.name (.cons e subdir next) = some (e,subdir) := by rw [child,if_pos rfl]
    rcases mem_cons.mp h with rfl | h
    · refine ⟨[],(append_nil _).symm,?_⟩
      rw [nil_append,find,hs,map_some]
    rcases mem_append.mp h with h | h
    · split_ifs at h with hd
      · obtain ⟨ds,hl,hf⟩ := ihs hsb h
        refine ⟨e.name :: ds,?_,?_⟩
        · rw [hl,spell,spell,flatMap_cons,append_assoc]
        · rw [cons_append,find_cons hs hd (by simp)]
          exact hf
      · cases h
    · obtain ⟨ds,hl,hf⟩ := ihn hn h
      refine ⟨ds,hl,?_⟩
      cases hds : ds ++ [n.2.name] with
      | nil => simp at hds
      | cons c cs =>
        rw [hds] at hf
        obtain ⟨e',sub',hc,-⟩ := find_split hf
        have hne : e.name ≠ c := ne_of_lt (hlt c (child_mem hc))
        rw [← hf]
        refine find_congr ?_
        rw [child,if_neg hne]

theorem emitted_of_find (leader : Name) (h : find cs t = some x) :
    ∃ ds,cs = ds ++ [x.name] ∧ (leader ++ spell ds,x) ∈ emitted t leader := by
  induction t generalizing cs leader with
  | nil =>
    rw [find_nil] at h
    cases h
  | cons e subdir next ihs ihn =>
    cases cs with
    | nil => cases h
    | cons c cs =>
      by_cases hn : e.name = c
      · have hs : child c (.cons e subdir next) = some (e,subdir) := by rw [child,if_pos hn]
        obtain ⟨e',sub,hc,hcs⟩ := find_split h
        rw [hs] at hc
        cases hc
        obtain ⟨rfl,rfl⟩ | ⟨-,hd,hr⟩ := hcs
        · refine ⟨[],by rw [hn,nil_append],?_⟩
          rw [spell,flatMap_nil,append_nil]
          exact mem_cons_self
        obtain ⟨ds,hds,hm⟩ := ihs (leader ++ '/' :: e.name) hr
        refine ⟨c :: ds,by rw [hds,cons_append],?_⟩
        rw [emitted,if_pos hd]
        refine .tail _ (mem_append_left _ ?_)
        rw [spell,flatMap_cons,← spell,← hn]
        rw [append_assoc] at hm
        exact hm
      · have hnx : find (c :: cs) next = some x := by
          rw [← h]
          refine (find_congr ?_).symm
          rw [child,if_neg hn]
        obtain ⟨ds,hds,hm⟩ := ihn leader hnx
        exact ⟨ds,hds,.tail _ (mem_append_right _ hm)⟩

/-- The path at which an entry is written. -/
def pathIn (n : Name × Entry) : Name := pathOf n.1 n.2.name

theorem path_split (ho : Ordered t) (h : n ∈ emitted t []) :
    find ((pathIn n).splitOn '/') t = some n.2 ∧ ∃ ds,n.1 = spell ds ∧ (pathIn n).splitOn '/' =
    ds ++ [n.2.name] := by
  obtain ⟨ds,hl,hf⟩ := find_of_emitted ho h
  have hp : (pathIn n).splitOn '/' = ds ++ [n.2.name] := by
    rw [pathIn,pathOf,hl,nil_append,← spell_append]
    exact spell_split (by simp) (find_parts ho hf).1
  rw [hp]
  exact ⟨hf,ds,hl,rfl⟩

theorem emitted_unique (ho : Ordered t) (h : n ∈ emitted t []) (h' : n' ∈ emitted t [])
    (hp : pathIn n' = pathIn n) : n' = n := by
  obtain ⟨hf,ds,hl,hpr⟩ := path_split ho h
  obtain ⟨hf',ds',hl',hp'⟩ := path_split ho h'
  rw [hp] at hf' hp'
  rw [hpr] at hp'
  have he : n'.2 = n.2 := some.inj (hf'.symm.trans hf)
  have hds : ds = ds' := (append_inj' hp' rfl).1
  exact Prod.ext (by rw [hl,hl',hds]) he

/-- The tree, and for every path what was last inserted at it. -/
structure Built where
  tree : Tree
  last : Name → Option Entry

def start : Built := ⟨.nil,fun _ => none⟩

/-- What follows the free of a pointer that was never set is not defined. -/
def step (id : Int) (s : Built) (i : Insertion) : Option Built :=
  if (insert id i s.tree).2 = some .badFree then none
  else
    some ⟨(insert id i s.tree).1,
      if (insert id i s.tree).2 = none then update s.last i.path (some i.new) else s.last⟩

/-- The path does not end in a slash and leads through directories, what it leads to has a source
that was set and is overwritten as a whole, and memory does not run out below a new directory. -/
structure Allowed (s : Built) (i : Insertion) : Prop where
  last : (i.path.splitOn '/').getLast? ≠ some []
  dirs : Through (i.path.splitOn '/') s.tree
  keeps : ∀ e,find (i.path.splitOn '/') s.tree = some e → e.type = i.new.type → Keeps i.new e
  memory : ∀ b ∈ i.memory.drop 2,b = true

structure Inv (s : Built) : Prop where
  ordered : Ordered s.tree
  last : ∀ p new,s.last p = some new → ∃ e,find (p.splitOn '/') s.tree = some e ∧ Same e new

theorem split_inj {p q : Name} (h : p.splitOn '/' = q.splitOn '/') : p = q := by
  have hj : ['/'].intercalate (p.splitOn '/') = p := intercalate_splitOn '/'
  rw [h,intercalate_splitOn] at hj
  exact hj.symm

theorem parts_no_slash {p : Name} : ∀ c ∈ p.splitOn '/','/' ∉ c := by
  induction p with
  | nil => simp
  | cons a p ih =>
    rw [splitOn_eq_splitOnP,splitOnP_cons_eq_if_modifyHead,← splitOn_eq_splitOnP]
    split_ifs with ha
    · exact forall_mem_cons.mpr ⟨not_mem_nil,ih⟩
    cases hp : p.splitOn '/' with
    | nil => exact forall_mem_nil _
    | cons d ds =>
      rw [hp] at ih
      obtain ⟨hd,hds⟩ := forall_mem_cons.mp ih
      refine forall_mem_cons.mpr ⟨fun hm => ?_,hds⟩
      rcases mem_cons.mp hm with he | hm
      · exact ha (beq_iff_eq.mpr he.symm)
      · exact hd hm

variable {id : Int}

theorem insert_refused (hs : Inv s) (ha : Allowed s i) (h : (insert id i s.tree).2 ≠ none) :
    (insert id i s.tree).1 = s.tree :=
  insert_list_refused hs.ordered ha.memory h

theorem Inv.step (hs : Inv s) (ha : Allowed s i) (h : step id s i = some s') : Inv s' := by
  obtain ⟨-,h⟩ := ite_none_left_eq_some.mp h
  cases h
  refine ⟨insert_list_ordered hs.ordered (parts_no_slash),?_⟩
  intro p new hl
  by_cases hd : (insert id i s.tree).2 = none
  · simp only [if_pos hd] at hl
    by_cases hp : p = i.path
    · subst hp
      rw [update_self] at hl
      cases hl
      exact insert_list_self hs.ordered (splitOn_ne_nil _ _) ha.last ha.dirs ha.keeps hd
    · rw [update_of_ne hp] at hl
      obtain ⟨e,he,hsm⟩ := hs.last p new hl
      exact ⟨e,insert_list_other hs.ordered (fun h => hp (split_inj h)) he,hsm⟩
  · simp only [if_neg hd] at hl
    obtain ⟨e,he,hsm⟩ := hs.last p new hl
    refine ⟨e,?_,hsm⟩
    rw [insert_refused hs ha hd]
    exact he

theorem step_defined (hs : Inv s) (ha : Allowed s i) : ∃ t,step id s i = some t :=
  ⟨_,if_neg (insert_list_free hs.ordered ha.dirs ha.keeps)⟩

theorem start_inv : Inv start := ⟨trivial,fun p new h => by cases h⟩

/-- Every path that was inserted has one entry that is written, as it was inserted last. -/
def Wins (s : Built) : Prop :=
  ∀ p new,s.last p = some new → ∃ n ∈ emitted s.tree [],pathIn n = p ∧ Same n.2 new ∧
    ∀ n' ∈ emitted s.tree [],pathIn n' = p → n' = n

theorem Inv.wins (hs : Inv s) : Wins s := by
  intro p new hl
  obtain ⟨e,hf,hsm⟩ := hs.last p new hl
  obtain ⟨ds,hds,hm⟩ := emitted_of_find [] hf
  have hpt : pathIn ([] ++ spell ds,e) = p := by
    apply split_inj
    rw [hds,pathIn,pathOf,nil_append,← spell_append]
    refine spell_split (by simp) ?_
    rw [← hds]
    exact parts_no_slash
  exact ⟨_,hm,hpt,hsm,fun n' hn' hp => emitted_unique hs.ordered hm hn' (hp.trans hpt.symm)⟩

theorem tree_of_run (h : exec (step id) s is = some s') :
    s'.tree = is.foldl (fun t i => (insert id i t).1) s.tree := by
  induction is generalizing s with
  | nil =>
    cases h
    rfl
  | cons i is ih =>
    obtain ⟨u,hu,hr⟩ := exec_cons h
    obtain ⟨-,hu⟩ := ite_none_left_eq_some.mp hu
    cases hu
    exact ih hr

/-- Allowed insertions free nothing that was not set; after them the tree has the last entry of
every path, which alone is written, and what is refused changes nothing. -/
theorem last_overlay_wins (id : Int) (src : Filesrc)
    (hok : Along (step id) Allowed start src.insertions) :
    ∃ s,exec (step id) start src.insertions = some s ∧ genFsTree id src = s.tree ∧ Wins s ∧
      (∀ i,Allowed s i → (insert id i s.tree).2 ≠ none → (insert id i s.tree).1 = s.tree) ∧
      ∀ env o,(∀ k,env.malloc k = true) →
        followDir env s.tree [] o = (emitted s.tree []).foldl (genEntry env) o := by
  have hp : ∀ s i t,Inv s → Allowed s i → step id s i = some t → Inv t :=
    fun _ _ _ hs ha h => hs.step ha h
  obtain ⟨s,hrun,hs⟩ := exec_total hp (fun _ _ => step_defined) start_inv hok
  refine ⟨s,hrun,(tree_of_run hrun).symm,hs.wins,?_,?_⟩
  · intro i ha h
    exact insert_refused hs ha h
  · intro env o hm
    exact follow_emitted hm

/-- A directory from the common files, and a file in it that an overlay replaces. -/
def replacedFile : Filesrc where
  base := []
  baseIsDir := true
  common := [⟨"d".toList,⟨.dir,[],some "/c/d".toList,[],0,-1,0,'c',0,0,false⟩,[]⟩,
    ⟨"d/f".toList,⟨.file,[],some "/c/d/f".toList,[],0,-1,0,'c',0,0,false⟩,[]⟩]
  overlays := [(true,[⟨"d/f".toList,⟨.file,[],some "/o/f".toList,[],0o640,3,4,'c',0,0,false⟩,[]⟩])]
  mic := []

instance (new cur : Entry) : Decidable (Keeps new cur) := decidable_of_iff _ (keeps_iff new cur).symm

instance (s : Built) (i : Insertion) : Decidable (Allowed s i) :=
  decidable_of_iff ((i.path.splitOn '/').getLast? ≠ some [] ∧
      (∀ ds ∈ (i.path.splitOn '/').inits,ds ≠ i.path.splitOn '/' →
      ∀ e ∈ find ds s.tree,e.type = .dir) ∧
      (∀ e ∈ find (i.path.splitOn '/') s.tree,e.type = i.new.type → Keeps i.new e) ∧
      ∀ b ∈ i.memory.drop 2,b = true)
    ⟨fun h => ⟨h.1,fun ds hp => h.2.1 ds ((mem_inits _ _).mpr hp),h.2.2.1,h.2.2.2⟩,
      fun h => ⟨h.last,fun ds hp => h.dirs ds ((mem_inits _ _).mp hp),h.keeps,h.memory⟩⟩

theorem replaced_file_wins :
    ∃ s,exec (step 0) start replacedFile.insertions = some s ∧ genFsTree 0 replacedFile =
    s.tree ∧ Wins s := by
  obtain ⟨s,hr,ht,hw,-⟩ := last_overlay_wins 0 replacedFile (by decide)
  exact ⟨s,hr,ht,hw⟩

/-- A link keeps the target of the one it replaces, a device the type; a second line for a link or a
device frees what was never set; a file below a file is not written, and a refused file may leave a
directory. -/
theorem overlays_that_lose :
    (∃ s,exec (step 0) start [addSimpleLink "/1/l".toList "a".toList "/".toList [] "l".toList [],
        addSimpleLink "/2/l".toList "b".toList "/".toList [] "l".toList []] = some s ∧ ¬ Wins s) ∧
    (∃ s,exec (step 0) start [addSimpleNod (missing []) 'c' "/1/n".toList "/".toList [] "n".toList [],
        addSimpleNod (missing []) 'b' "/2/n".toList "/".toList [] "n".toList []] = some s ∧ ¬ Wins s) ∧
    exec (step 0) start [addLink (missing []) "/l".toList "a".toList 0 0 0 [],
      addLink (missing []) "/l".toList "a".toList 0 0 0 []] = none ∧
    exec (step 0) start [addDnode (missing []) "/n".toList 0o600 0 0 'c' 5 1 [],
      addDnode (missing []) "/n".toList 0o600 0 0 'c' 5 1 []] = none ∧
    (∃ s,exec (step 0) start [⟨"f".toList,sourced .file [],[]⟩,⟨"f/g".toList,sourced .file [],[]⟩] =
      some s ∧ ¬ Wins s) ∧
    (∃ s,exec (step 0) start [⟨"f/".toList,sourced .file [],[]⟩] = some s ∧ ¬ Wins s) ∧
    (insert 0 ⟨"d/f".toList,sourced .file [],[true,true,false]⟩ .nil).2 ≠ none ∧
    (insert 0 ⟨"d/f".toList,sourced .file [],[true,true,false]⟩ .nil).1 ≠ .nil := by
  refine ⟨⟨_,rfl,fun h => ?_⟩,⟨_,rfl,fun h => ?_⟩,rfl,rfl,
    ⟨_,rfl,fun h => ?_⟩,⟨_,rfl,fun h => ?_⟩,by decide,
    by decide⟩
  · obtain ⟨n,hn,-,hs,-⟩ := h "l".toList _ rfl
    have ho : n.2.link = "a".toList := by
      clear hs
      revert n
      decide
    have hnw := hs.link rfl
    rw [ho] at hnw
    exact absurd hnw (by decide)
  · obtain ⟨n,hn,-,hs,-⟩ := h "n".toList _ rfl
    have ho : n.2.inodeType = 'c' := by
      clear hs
      revert n
      decide
    have hnw := hs.node rfl
    rw [ho] at hnw
    exact absurd hnw (by decide)
  · obtain ⟨n,hn,hp,-⟩ := h "f/g".toList _ rfl
    revert n
    decide
  · obtain ⟨n,hn,hp,-⟩ := h "f/".toList _ rfl
    revert n
    decide

/-- Whatever is inserted, and whichever allocations fail, the names in each directory increase, and
what is written under one path is one entry. -/
theorem tree_paths_unique (id : Int) (src : Filesrc) : Ordered (genFsTree id src) ∧
    ∀ n ∈ emitted (genFsTree id src) [],∀ n' ∈ emitted (genFsTree id src) [],
      pathIn n' = pathIn n → n' = n := by
  have h : Ordered (genFsTree id src) :=
    foldlRecOn (motive := Ordered) _ _ ordered_nil
      (fun t ht i _ => insert_list_ordered ht parts_no_slash)
  exact ⟨h,fun n hn n' hn' => emitted_unique h hn hn'⟩

end Mpss.Proofs.OverlayWins
