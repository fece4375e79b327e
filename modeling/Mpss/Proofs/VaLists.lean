import Mpss.Micscif.VaGen

namespace Mpss.Proofs.VaLists
open Library.Chains Micscif.VaGen List Function Option

theorem get_set_same (n : Node) : vaNodeGet (vaNodeSet node i n) i = n := by simp [vaNodeGet,vaNodeSet]

theorem get_set_ne (n : Node) (h : j ≠ i) : vaNodeGet (vaNodeSet node i n) j = vaNodeGet node j := by
  simp only [vaNodeGet,vaNodeSet]
  by_cases hs : j / nodesInSlab = i / nodesInSlab
  · have hm : j % nodesInSlab ≠ i % nodesInSlab := by
      intro hm
      apply h
      rw [← Nat.div_add_mod j nodesInSlab,← Nat.div_add_mod i nodesInSlab,hs,hm]
    rw [hs,update_self,update_of_ne hm]
  · rw [update_of_ne hs]

/-- The allocator with one of its lists: the indices on it, on the free list and in other hands are
different nodes of the slabs. -/
structure Owned (node : VaNodeAllocator) (root : Nat) (l free rest : List Nat) : Prop where
  list : Path (nextOf node) invalidVaNodeIndex root l
  spare : Path (nextOf node) invalidVaNodeIndex node.freeList free
  nodup : (l ++ (free ++ rest)).Nodup
  bound : ∀ i ∈ l ++ (free ++ rest),i < nodeCount node
  small : node.numSlabs + node.numFreeSlabs ≤ 2 ^ 22

/-- The nodes in other hands are untouched. -/
def Kept (node node' : VaNodeAllocator) (l : List Nat) : Prop :=
  ∀ i ∈ l,vaNodeGet node' i = vaNodeGet node i

/-- One list has become another; the nodes in other hands are untouched. -/
def Relisted (node node' : VaNodeAllocator) (root' : Nat) (l' rest : List Nat) : Prop :=
  ∃ free',Owned node' root' l' free' rest ∧ Kept node node' rest

theorem Kept.trans (h : Kept node node' l) (h' : Kept node' node'' l) : Kept node node'' l := by
  intro i hi
  rw [h' i hi,h i hi]

theorem Kept.map_extent (h : Kept node node' l) : l.map (extentOf node') = l.map (extentOf node) := by
  refine map_congr_left ?_
  intro i hi
  simp [extentOf,h i hi]

theorem Path.kept (hp : Path (nextOf node) stop r l) (h : Kept node node' l) :
    Path (nextOf node') stop r l := by
  refine hp.congr ?_
  intro i hi
  simp [nextOf,h i hi]

theorem set_kept (node : VaNodeAllocator) (n : Node) (h : i ∉ l) :
    Kept node (vaNodeSet node i n) l := by
  intro j hj
  exact get_set_ne n (fun he => h (he ▸ hj))

section
variable (ho : Owned node root l free rest)
include ho

theorem Owned.length_le : l.length ≤ nodeCount node := by
  have hn : l.Nodup := (nodup_append.mp ho.nodup).1
  have hs : l ⊆ range (nodeCount node) := by
    intro i hi
    exact mem_range.mpr (ho.bound i (mem_append_left _ hi))
  have := List.Nodup.length_le_of_subset hn hs
  simpa using this

theorem Owned.list_free (hi : i ∈ l) : i ∉ free ∧ i ∉ rest := by
  have hd := (nodup_append.mp ho.nodup).2.2
  exact ⟨fun h => hd i hi i (mem_append_left _ h) rfl,fun h => hd i hi i (mem_append_right _ h) rfl⟩

theorem Owned.set (hi : i ∈ l) (n : Node)
    (hn : n.next = (vaNodeGet node i).next) : Owned (vaNodeSet node i n) root l free rest := by
  have hk := set_kept node n (ho.list_free hi).1
  refine ⟨ho.list.congr ?_,Path.kept ho.spare hk,ho.nodup,ho.bound,ho.small⟩
  intro j hj
  rcases eq_or_ne j i with rfl | hne
  · rw [nextOf,get_set_same,hn,nextOf]
  · rw [nextOf,get_set_ne n hne,nextOf]

theorem Owned.valid (hi : i ∈ l ++ (free ++ rest)) : i ≠ invalidVaNodeIndex := by
  have hb := ho.bound i hi
  have hs := ho.small
  simp only [nodeCount,nodesInSlab,invalidVaNodeIndex] at *
  omega

end

theorem Owned.give (ho : Owned node root l free (i :: rest)) :
    Owned (vaNodeFree node i) root l (i :: free) rest ∧ Kept node (vaNodeFree node i) (l ++ rest) := by
  have hp : (l ++ (free ++ i :: rest)).Perm (l ++ (i :: free ++ rest)) :=
    List.Perm.append_left l perm_middle
  have hnd := hp.nodup_iff.mp ho.nodup
  have hmm : i ∈ l ++ (free ++ i :: rest) := by simp
  have hot : i ∉ l ∧ i ∉ free ∧ i ∉ rest := by
    simp only [nodup_append,nodup_cons,cons_append,mem_append] at hnd
    refine ⟨fun h => ?_,fun h => hnd.2.1.1 (.inl h),fun h => hnd.2.1.1 (.inr h)⟩
    exact hnd.2.2 i h i (by simp) rfl
  have hk : ∀ m : List Nat,i ∉ m → Kept node (vaNodeFree node i) m := fun m hm =>
    set_kept node { vaNodeGet node i with next := node.freeList } hm
  refine ⟨⟨Path.kept ho.list (hk l hot.1),?_,hnd,?_,ho.small⟩,hk _ (by simp [hot])⟩
  · refine .cons i free (ho.valid hmm) ?_
    have hn : nextOf (vaNodeFree node i) i = node.freeList :=
      congrArg Node.next (get_set_same { vaNodeGet node i with next := node.freeList })
    rw [hn]
    exact Path.kept ho.spare (hk free hot.2.1)
  · intro j hj
    exact ho.bound j (hp.mem_iff.mpr hj)

theorem Owned.pop (ho : Owned node root l (i :: free) rest) :
    (popFree node).1 = i ∧ Owned (popFree node).2 root l free (i :: rest) ∧
      Kept node (popFree node).2 (l ++ rest) := by
  have hr : node.freeList = i := ho.spare.root
  have hp : (l ++ (i :: free ++ rest)).Perm (l ++ (free ++ i :: rest)) :=
    List.Perm.append_left l perm_middle.symm
  have hk : ∀ m,Kept node (popFree node).2 m := fun m j _ => rfl
  refine ⟨hr,⟨Path.kept ho.list (hk l),?_,hp.nodup_iff.mp ho.nodup,?_,ho.small⟩,hk _⟩
  · change Path _ _ (vaNodeGet node node.freeList).next free
    rw [hr]
    exact Path.kept ho.spare.tail (hk free)
  · intro j hj
    exact ho.bound j (hp.mem_iff.mpr hj)

theorem slab_path (h : ∀ j < nodesInSlab,nextOf node (start + j) =
      if j < nodesInSlab - 1 then start + j + 1 else invalidVaNodeIndex)
    (hlt : start + nodesInSlab ≤ invalidVaNodeIndex) :
    Path (nextOf node) invalidVaNodeIndex start (List.range' start nodesInSlab) := by
  have hp : ∀ k,k < nodesInSlab →
      Path (nextOf node) invalidVaNodeIndex (start + (nodesInSlab - (k + 1)))
        (range' (start + (nodesInSlab - (k + 1))) (k + 1)) := by
    intro k
    induction k with
    | zero =>
      intro hk
      have hl := h (nodesInSlab - 1) (by decide)
      refine .cons _ [] (by omega) ?_
      rw [zero_add,hl]
      exact .nil
    | succ k ih =>
      intro hk
      have hn := h (nodesInSlab - (k + 1 + 1)) (by omega)
      rw [if_pos (by omega)] at hn
      refine .cons _ _ (by omega) ?_
      rw [hn]
      have he : start + (nodesInSlab - (k + 1 + 1)) + 1 = start + (nodesInSlab - (k + 1)) := by omega
      rw [he]
      exact ih (by omega)
  exact hp (nodesInSlab - 1) (by decide)

theorem new_slab_get {node : VaNodeAllocator} (free numFree start j : Nat)
    (hs : start = node.numSlabs * nodesInSlab) (hj : j < nodesInSlab) :
    vaNodeGet ⟨update node.slabDirectory node.numSlabs (newSlab start node.freeList),
      node.numSlabs + 1,numFree,free⟩ (start + j) = newSlab start node.freeList j := by
  have hp : 0 < nodesInSlab := by decide
  have hd : (start + j) / nodesInSlab = node.numSlabs := by
    rw [hs,mul_comm,Nat.mul_add_div hp,Nat.div_eq_of_lt hj,add_zero]
  have hm : (start + j) % nodesInSlab = j := by rw [hs,mul_comm,Nat.mul_add_mod,Nat.mod_eq_of_lt hj]
  simp [vaNodeGet,hd,hm]

theorem Owned.addSlab (ho : Owned node root l [] rest) (hf : 0 < node.numFreeSlabs)
    (h : addSlab mem node = some node') :
    ∃ free,Owned node' root l free rest ∧ free ≠ [] ∧ Kept node node' (l ++ rest) := by
  obtain ⟨_,h⟩ := ite_none_right_eq_some.mp h
  cases h
  have hsm := ho.small
  have hen : node.freeList = invalidVaNodeIndex := ho.spare.ended
  have hn : nodesInSlab = 128 := rfl
  have hc : node.numSlabs * nodesInSlab = node.numSlabs * 128 := rfl
  set start := node.numSlabs * nodesInSlab
  have hs : start % 2 ^ 32 = start := by omega
  rw [hs]
  have hg := fun j => new_slab_get start (node.numFreeSlabs - 1) start j rfl
  have hl : ∀ i ∈ l ++ rest,i < start := fun i hi =>
    ho.bound i (by simpa using hi)
  have hk : Kept node ⟨update node.slabDirectory node.numSlabs
      (newSlab start node.freeList),node.numSlabs + 1,
      node.numFreeSlabs - 1,start⟩ (l ++ rest) := by
    intro i hi
    have hne : i / nodesInSlab ≠ node.numSlabs :=
      ne_of_lt (Nat.div_lt_of_lt_mul (by rw [mul_comm]; exact hl i hi))
    simp [vaNodeGet,update_of_ne hne]
  refine ⟨range' start nodesInSlab,⟨?_,?_,?_,?_,?_⟩,by simp [hn],hk⟩
  · exact Path.kept ho.list (fun i hi => hk i (mem_append_left _ hi))
  · refine slab_path ?_ ?_
    · intro j hj
      rw [nextOf,hg j hj,newSlab,hen]
    · simp only [invalidVaNodeIndex]
      omega
  · have hol : (l ++ rest).Nodup := by simpa using ho.nodup
    have hp : (l ++ (range' start nodesInSlab ++ rest)).Perm
        (range' start nodesInSlab ++ (l ++ rest)) :=
      perm_append_comm_assoc _ _ _
    refine hp.nodup_iff.mpr (nodup_append.mpr ⟨nodup_range',hol,?_⟩)
    intro i hi j hj he
    have := (mem_range'_1.mp hi).1
    have := hl j hj
    omega
  · intro i hi
    simp only [nodeCount,add_mul,one_mul]
    rcases mem_append.mp hi with hi | hi
    · have := hl i (mem_append_left _ hi)
      omega
    · rcases mem_append.mp hi with hi | hi
      · exact (mem_range'_1.mp hi).2
      · have := hl i (mem_append_right _ hi)
        omega
  · dsimp only
    omega

theorem Owned.grow (ho : Owned node root l [] rest) (h : vaNodeGrow mem node = some node') :
    ∃ free,Owned node' root l free rest ∧ free ≠ [] ∧ Kept node node' (l ++ rest) := by
  simp only [vaNodeGrow] at h
  split at h
  · obtain ⟨node1,h1,h2⟩ := bind_eq_some_iff.mp h
    simp only [vaNodeRealloc] at h1
    split at h1
    · rename_i hz hk
      have hle : 8 * ((2 * node.numSlabs + 1) % 2 ^ 32) ≤ 2 ^ 25 :=
        (of_decide_eq_true hk).trans mem.is_le
      have hs := ho.small
      cases h1
      have ho1 : Owned { node with numFreeSlabs := (2 * node.numSlabs + 1) % 2 ^ 32 - node.numSlabs }
          root l [] rest :=
        { ho with small := by dsimp only; omega }
      exact ho1.addSlab (by dsimp only; omega) h2
    · cases h1
  · exact ho.addSlab (by omega) h

theorem Owned.alloc (ho : Owned node root l free rest) (h : vaNodeAlloc mem node = some (ptr,node')) :
    ∃ free',Owned node' root l free' (ptr :: rest) ∧ Kept node node' (l ++ rest) := by
  simp only [vaNodeAlloc] at h
  split_ifs at h with hv
  · cases free with
    | nil => simp [vaNodeIsValid,ho.spare.ended] at hv
    | cons i free =>
      obtain ⟨hp,ho',hk⟩ := ho.pop
      rw [some.inj h] at hp ho' hk
      obtain rfl : ptr = i := hp
      exact ⟨free,ho',hk⟩
  · have hn : free = [] := by
      cases free with
      | nil => rfl
      | cons i free =>
        have hi := ho.valid (i := i) (by simp)
        rw [← ho.spare.root] at hi
        exact absurd (bne_iff_ne.mpr hi.symm) hv
    subst hn
    obtain ⟨node1,h1,h2⟩ := map_eq_some_iff.mp h
    obtain ⟨free,ho1,hne,hk1⟩ := ho.grow h1
    cases free with
    | nil => exact absurd rfl hne
    | cons i free =>
      obtain ⟨hp,ho',hk⟩ := ho1.pop
      rw [h2] at hp ho' hk
      obtain rfl : ptr = i := hp
      exact ⟨free,ho',hk1.trans hk⟩

theorem extent_free : extentOf (vaNodeFree node i) = extentOf node := by
  funext j
  rcases eq_or_ne j i with rfl | hne
  · have hg : vaNodeGet (vaNodeFree node j) j = { vaNodeGet node j with next := node.freeList } :=
      get_set_same _
    simp [extentOf,hg]
  · have hg : vaNodeGet (vaNodeFree node i) j = vaNodeGet node j :=
      get_set_ne { vaNodeGet node i with next := node.freeList } hne
    simp [extentOf,hg]

theorem extent_set_same :
    extentOf (vaNodeSet node i n) i = ⟨n.base,n.range⟩ := by rw [extentOf,get_set_same]

theorem map_set_ne (node : VaNodeAllocator) (n : Node) {l : List Nat} (h : i ∉ l) :
    l.map (extentOf (vaNodeSet node i n)) = l.map (extentOf node) :=
  (set_kept node n h).map_extent

theorem map_set (hm : i ∉ mid) (hp : i ∉ post) :
    (mid ++ i :: post).map (extentOf (vaNodeSet node i n)) =
      mid.map (extentOf node) ++ ⟨n.base,n.range⟩ :: post.map (extentOf node) := by
  rw [map_append,map_cons,map_set_ne node n hm,map_set_ne node n hp,extent_set_same]

theorem Owned.apart (ho : Owned node root (mid ++ i :: post) free rest) : i ∉ mid ∧ i ∉ post := by
  have hn := (nodup_append.mp ho.nodup).1
  have hd := nodup_append.mp hn
  exact ⟨fun h => hd.2.2 i h i mem_cons_self rfl,(nodup_cons.mp hd.2.1).1⟩

theorem Owned.behead (ho : Owned node root (j :: post) free rest) :
    Owned node (nextOf node j) post free (j :: rest) := by
  have hp : (j :: post ++ (free ++ rest)).Perm (post ++ (free ++ j :: rest)) := by
    rw [cons_append,← append_assoc,← append_assoc]
    exact perm_middle.symm
  refine ⟨ho.list.tail,ho.spare,hp.nodup_iff.mp ho.nodup,?_,ho.small⟩
  intro i hi
  exact ho.bound i (hp.mem_iff.mpr hi)

theorem Owned.bypass (ho : Owned node root (mid ++ i :: j :: post) free rest) (n : Node)
    (hn : n.next = nextOf node j) :
    Owned (vaNodeSet node i n) root (mid ++ i :: post) free (j :: rest) := by
  have hi : i ∈ mid ++ i :: j :: post := by simp
  obtain ⟨hm,hps⟩ := ho.apart
  have hp : (mid ++ i :: j :: post ++ (free ++ rest)).Perm
      (mid ++ i :: post ++ (free ++ j :: rest)) := by
    simp only [append_assoc,cons_append]
    refine List.Perm.append_left mid (List.Perm.cons i ?_)
    rw [← append_assoc,← append_assoc]
    exact perm_middle.symm
  refine ⟨ho.list.relink ?_ ?_,Path.kept ho.spare (set_kept node n (ho.list_free hi).1),
    hp.nodup_iff.mp ho.nodup,?_,ho.small⟩
  · intro k hk
    have hki : k ≠ i := fun he => hm (he ▸ hk)
    rw [nextOf,get_set_ne n hki,nextOf]
  · have hnx : nextOf (vaNodeSet node i n) i = nextOf node j := by rw [nextOf,get_set_same,hn]
    rw [hnx]
    exact Path.kept ho.list.behind.tail (set_kept node n (fun h => hps (.tail j h)))
  · intro k hk
    exact ho.bound k (hp.mem_iff.mpr hk)

theorem Owned.linkFirst (ho : Owned node root l free (ptr :: rest)) (hn : n.next = root) :
    Owned (vaNodeSet node ptr n) ptr (ptr :: l) free rest := by
  have hp : (l ++ (free ++ ptr :: rest)).Perm (ptr :: l ++ (free ++ rest)) := by
    rw [← append_assoc,cons_append,← append_assoc]
    exact perm_middle
  have hnd := hp.nodup_iff.mp ho.nodup
  have hot := (nodup_cons.mp hnd).1
  refine ⟨.cons ptr l (ho.valid (by simp)) ?_,Path.kept ho.spare (set_kept node n ?_),hnd,?_,ho.small⟩
  · rw [nextOf,get_set_same,hn]
    exact Path.kept ho.list (set_kept node n (fun h => hot (mem_append_left _ h)))
  · exact fun h => hot (mem_append_right _ (mem_append_left _ h))
  · intro i hi
    exact ho.bound i (hp.mem_iff.mpr hi)

theorem Owned.linkBehind (ho : Owned node root (mid ++ p :: post) free (ptr :: rest))
    (hn : n.next = nextOf node p) (hm : m.next = ptr) :
    Owned (vaNodeSet (vaNodeSet node ptr n) p m) root (mid ++ p :: ptr :: post) free rest := by
  have hpr : (mid ++ p :: post ++ (free ++ ptr :: rest)).Perm
      (mid ++ p :: ptr :: post ++ (free ++ rest)) := by
    simp only [append_assoc,cons_append]
    refine List.Perm.append_left mid (List.Perm.cons p ?_)
    rw [← append_assoc,← append_assoc]
    exact perm_middle
  have hnd := hpr.nodup_iff.mp ho.nodup
  obtain ⟨hl,hfr,hd⟩ := nodup_append.mp hnd
  obtain ⟨hmd,hc,hmp⟩ := nodup_append.mp hl
  have hp := nodup_cons.mp hc
  have hpt := (nodup_cons.mp hp.2).1
  have hne : ptr ≠ p := fun h => hp.1 (h ▸ mem_cons_self)
  refine ⟨ho.list.relink ?_ ?_,Path.kept (Path.kept ho.spare (set_kept node n ?_))
    (set_kept _ m ?_),hnd,?_,ho.small⟩
  · intro k hk
    have hkp := hmp k hk p mem_cons_self
    have hkr := hmp k hk ptr (.tail p mem_cons_self)
    rw [nextOf,get_set_ne m hkp,get_set_ne n hkr,nextOf]
  · rw [nextOf,get_set_same,hm]
    refine .cons ptr post (ho.valid (by simp)) ?_
    rw [nextOf,get_set_ne m hne,get_set_same,hn]
    exact Path.kept (Path.kept ho.list.behind (set_kept node n hpt))
      (set_kept _ m (fun h => hp.1 (.tail ptr h)))
  · exact fun h => hd ptr (by simp) ptr (mem_append_left _ h) rfl
  · exact fun h => hd p (by simp) p (mem_append_left _ h) rfl
  · intro i hi
    exact ho.bound i (hpr.mem_iff.mpr hi)

end Mpss.Proofs.VaLists
