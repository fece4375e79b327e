import Mpss.Proofs.VaLists

namespace Mpss.Proofs.VaInsert
open Library.Chains Library.Extents Micscif.VaGen List
open VaLists

/-- The sums of the source do not wrap for these nodes. -/
def Fits (node : VaNodeAllocator) (l : List Nat) : Prop := ∀ i ∈ l,(extentOf node i).stop < 2 ^ 64

theorem Fits.sum (h : Fits node l) (hi : i ∈ l) :
    addU64 (vaNodeGet node i).base (vaNodeGet node i).range = (extentOf node i).stop :=
  Nat.mod_eq_of_lt (h i hi)

theorem valid_of_ne (h : i ≠ invalidVaNodeIndex) :
    ¬ (!vaNodeIsValid i) = true := by simp [vaNodeIsValid,h.symm]

theorem invalid_not_valid : (!vaNodeIsValid invalidVaNodeIndex) = true := by simp [vaNodeIsValid]

/-- What the pass finds: a node, or a gap with the last node passed. Where no sum wraps (`ok`) it is
where the extents are coalesced. -/
def PlaceOf (ok : Prop) (node : VaNodeAllocator) (e : Extent) (suf : List Nat) (prev : Nat) :
    Place → Prop
  | .overlap => ok → coalesce e (suf.map (extentOf node)) = none
  | .before i => ∃ mid post,suf = mid ++ i :: post ∧ (ok → e.stop = (extentOf node i).base ∧
      coalesce e (suf.map (extentOf node)) = some (mid.map (extentOf node) ++
        ⟨e.base,(extentOf node i).range + e.range⟩ :: post.map (extentOf node)))
  | .behind i => ∃ mid post,suf = mid ++ i :: post ∧ (ok → (extentOf node i).stop = e.base ∧
      coalesce e (suf.map (extentOf node)) = some (mid.map (extentOf node) ++
        join ⟨(extentOf node i).base,(extentOf node i).range + e.range⟩ (post.map (extentOf node))))
  | .gap i p => ∃ mid post,suf = mid ++ post ∧ Path (nextOf node) invalidVaNodeIndex i post ∧
      (mid = [] ∧ p = prev ∨ ∃ mid',mid = mid' ++ [p]) ∧
      (ok → coalesce e (suf.map (extentOf node)) = some (mid.map (extentOf node) ++ e :: post.map
      (extentOf node)))

theorem PlaceOf.pass {prev : Nat} (h : PlaceOf ok node e suf i pl)
    (hi : ok → coalesce e (extentOf node i :: suf.map (extentOf node)) =
      (coalesce e (suf.map (extentOf node))).map (extentOf node i :: ·)) :
    PlaceOf ok node e (i :: suf) prev pl := by
  cases pl with
  | overlap =>
    intro hok
    rw [map_cons,hi hok,h hok]
    rfl
  | before j | behind j =>
    obtain ⟨mid,post,rfl,h⟩ := h
    refine ⟨i :: mid,post,rfl,fun hok => ⟨(h hok).1,?_⟩⟩
    rw [map_cons,hi hok,(h hok).2]
    rfl
  | gap j p =>
    obtain ⟨mid,post,rfl,hp,hpr,h⟩ := h
    refine ⟨i :: mid,post,rfl,hp,.inr ?_,fun hok => ?_⟩
    · rcases hpr with ⟨rfl,rfl⟩ | ⟨mid',rfl⟩
      · exact ⟨[],rfl⟩
      · exact ⟨i :: mid',rfl⟩
    · rw [map_cons,hi hok,h hok]
      rfl

/-- The pass of the source finds the place that coalescing takes. -/
theorem findPlace_spec (n prev : Nat) (hp : Path (nextOf node) invalidVaNodeIndex findPtr suf)
    (hn : suf.length ≤ n) (hok : ok → Fits node suf ∧ endRange = e.stop) :
    PlaceOf ok node e suf prev (findPlace node e.base endRange n findPtr prev) := by
  induction n generalizing findPtr prev suf with
  | zero =>
    obtain rfl : suf = [] := length_eq_zero_iff.mp (by omega)
    exact ⟨[],[],rfl,hp,.inl ⟨rfl,rfl⟩,fun _ => rfl⟩
  | succ n ih =>
    cases suf with
    | nil =>
      obtain rfl := hp.ended
      exact ⟨[],[],rfl,hp,.inl ⟨rfl,rfl⟩,fun _ => rfl⟩
    | cons i suf =>
      obtain rfl := hp.root
      set v := vaNodeGet node findPtr
      have hs : ok → addU64 v.base v.range =
          (extentOf node findPtr).stop := fun h => (hok h).1.sum mem_cons_self
      have hb : v.base = (extentOf node findPtr).base := rfl
      have he : ok → endRange = e.stop := fun h => (hok h).2
      have ht : ok → Fits node suf ∧ endRange = e.stop := fun h =>
        ⟨fun j hj => (hok h).1 j (.tail findPtr hj),(hok h).2⟩
      have hm : ok → ((if v.base < e.base then
          addU64 v.base v.range > e.base
          else endRange > v.base) ↔ (extentOf node findPtr).Meets e) := by
        intro h
        rw [hs h,he h]
        rfl
      rw [findPlace,if_neg (valid_of_ne (hp.live findPtr mem_cons_self))]
      by_cases h1 : if v.base < e.base then
          addU64 v.base v.range > e.base
          else endRange > v.base
      · rw [if_pos h1]
        intro h
        rw [map_cons,coalesce,if_pos ((hm h).mp h1)]
      rw [if_neg h1]
      split
      · rename_i h2
        refine ⟨[],suf,rfl,fun h => ?_⟩
        rw [he h,hb] at h2
        refine ⟨h2,?_⟩
        rw [map_cons,coalesce,if_neg ((hm h).not.mp h1),if_pos h2]
        rfl
      rename_i h2
      split
      · rename_i h3
        refine ⟨[],suf,rfl,fun h => ?_⟩
        rw [he h,hb] at h2
        rw [hs h] at h3
        refine ⟨h3,?_⟩
        rw [map_cons,coalesce,if_neg ((hm h).not.mp h1),if_neg h2,if_pos h3]
        rfl
      rename_i h3
      split_ifs with h4
      · refine ⟨[],findPtr :: suf,rfl,hp,.inl ⟨rfl,rfl⟩,fun h => ?_⟩
        rw [he h,hb] at h2 h4
        rw [hs h] at h3
        rw [map_cons,coalesce,if_neg ((hm h).not.mp h1),if_neg h2,if_neg h3,if_pos h4]
        rfl
      refine PlaceOf.pass (ih findPtr hp.tail (Nat.le_of_succ_le_succ hn) ht) ?_
      intro h
      rw [he h,hb] at h2 h4
      rw [hs h] at h3
      rw [coalesce,if_neg ((hm h).not.mp h1),if_neg h2,if_neg h3,if_neg h4]

/-- What inserting does to the list of nodes, against what it does to their extents. -/
def InsertedOf (ok : Prop) (mem : Memory) (node : VaNodeAllocator) (e : Extent)
    (l rest : List Nat) : Inserted → Prop
  | .bug => vaNodeAlloc mem node = none
  | .failed => ok → coalesce e (l.map (extentOf node)) = none
  | .done node' root' => ∃ l',Relisted node node' root' l' rest ∧
      (ok → coalesce e (l.map (extentOf node)) = some (l'.map (extentOf node')))

theorem set_set : vaNodeSet (vaNodeSet node i n) i m = vaNodeSet node i m := by simp [vaNodeSet]

theorem coalesceBehind_spec {e : Extent} (endRange : Nat)
    (ho : Owned node root (mid ++ i :: post) free rest)
    (hok : ok → Fits node (mid ++ i :: post) ∧ (extentOf node i).stop = e.base ∧ e.stop < 2 ^ 64 ∧
    endRange = e.stop) :
    ∃ node' l' free',coalesceBehind node root endRange e.range i = .done node' root ∧
      Owned node' root l' free' rest ∧ Kept node node' rest ∧
      (ok → l'.map (extentOf node') = mid.map (extentOf node) ++
        join ⟨(extentOf node i).base,(extentOf node i).range + e.range⟩
        (post.map (extentOf node))) := by
  have hi : i ∈ mid ++ i :: post := by simp
  have hrs := (ho.list_free hi).2
  obtain ⟨hmd,hp⟩ := ho.apart
  have hsm : ok → addU64 (vaNodeGet node i).range e.range = (extentOf node i).range + e.range := by
    intro h
    obtain ⟨hf,hs,he,_⟩ := hok h
    refine Nat.mod_eq_of_lt ?_
    simp only [extentOf,Extent.stop] at *
    omega
  have ha : ∀ next,(ok → join ⟨(extentOf node i).base,(extentOf node i).range + e.range⟩
        (post.map (extentOf node)) =
        ⟨(extentOf node i).base,(extentOf node i).range + e.range⟩ :: post.map (extentOf node)) →
      ok → (mid ++ i :: post).map (extentOf (vaNodeSet node i
        ⟨next,(vaNodeGet node i).base,addU64 (vaNodeGet node i).range e.range⟩)) =
        mid.map (extentOf node) ++
        join ⟨(extentOf node i).base,(extentOf node i).range + e.range⟩
        (post.map (extentOf node)) := by
    intro next hj h
    rw [map_set hmd hp,hj h,← hsm h]
    rfl
  cases post with
  | nil =>
    have hen : (vaNodeGet node i).next = invalidVaNodeIndex := ho.list.behind.ended
    simp only [coalesceBehind]
    rw [if_neg (by simp [vaNodeIsValid,hen])]
    exact ⟨_,_,_,rfl,ho.set hi _ rfl,set_kept node _ hrs,ha _ (fun _ => rfl)⟩
  | cons j post =>
    have hn : (vaNodeGet node i).next = j := ho.list.behind.root
    have hji : j ≠ i := fun h => hp (h ▸ mem_cons_self)
    have hl : vaNodeIsValid j = true := bne_iff_ne.mpr (ho.valid (i := j) (by simp)).symm
    simp only [coalesceBehind,hn]
    rw [if_pos hl,get_set_same,set_set,get_set_ne _ hji]
    split
    · let m : Node := ⟨(vaNodeGet node j).next,(vaNodeGet node i).base,
        addU64 (addU64 (vaNodeGet node i).range e.range) (vaNodeGet node j).range⟩
      have hby : Owned (vaNodeSet node i m) root (mid ++ i :: post) free (j :: rest) := ho.bypass m rfl
      obtain ⟨hg,hk⟩ := hby.give
      refine ⟨_,mid ++ i :: post,j :: free,rfl,hg,
        (set_kept node m hrs).trans (fun k hm => hk k (mem_append_right _ hm)),?_⟩
      intro h
      obtain ⟨hf,hs,he,hen⟩ := hok h
      have hft := hf j (by simp)
      have ht' : (extentOf node j).base =
          (⟨(extentOf node i).base,(extentOf node i).range + e.range⟩ : Extent).stop := by
        simp only [Extent.stop,extentOf] at *
        omega
      have hr : m.range = (extentOf node i).range + e.range + (extentOf node j).range := by
        change addU64 (addU64 (vaNodeGet node i).range e.range) (extentOf node j).range = _
        rw [hsm h]
        refine Nat.mod_eq_of_lt ?_
        simp only [Extent.stop,extentOf] at *
        omega
      rw [extent_free,map_set hmd (fun hm => hp (.tail j hm)),map_cons,join,if_pos ht',hr]
      rfl
    · refine ⟨_,_,_,rfl,ho.set hi _ hn.symm,set_kept node _ hrs,ha j ?_⟩
      intro h
      obtain ⟨hf,hs,he,hen⟩ := hok h
      rw [map_cons,join,if_neg]
      simp only [Extent.stop,extentOf] at *
      omega

theorem insertNode_spec (ho : Owned node root (mid ++ post) free (ptr :: rest))
    {base range prev : Nat} (hp : Path (nextOf node) invalidVaNodeIndex findPtr post)
    (hm : mid = [] ∧ prev = root ∨ ∃ mid',mid = mid' ++ [prev]) :
    ∃ node' root',insertNode node root base range findPtr prev ptr = .done node' root' ∧
      Owned node' root' (mid ++ ptr :: post) free rest ∧ Kept node node' rest ∧
      (mid ++ ptr :: post).map (extentOf node') = mid.map (extentOf node) ++
        ⟨base,range⟩ :: post.map (extentOf node) := by
  have hpt : ptr ∉ mid ++ post := by
    have hd := (nodup_append.mp ho.nodup).2.2
    exact fun h => hd ptr h ptr (by simp) rfl
  have hr : ptr ∉ rest := by
    have hd := (nodup_append.mp (nodup_append.mp ho.nodup).2.1).2.1
    exact (nodup_cons.mp hd).1
  have hlv : ¬ (!vaNodeIsValid ptr) = true := valid_of_ne (ho.valid (by simp))
  have hot : ptr ∉ mid ∧ ptr ∉ post := by simpa using hpt
  simp only [insertNode]
  rw [if_neg hlv]
  rcases hm with ⟨rfl,rfl⟩ | ⟨mid',rfl⟩
  · have hrt : findPtr = prev := hp.same_root ho.list
    rw [if_pos hrt]
    refine ⟨_,_,rfl,ho.linkFirst hrt,set_kept node _ hr,?_⟩
    exact map_set hot.1 hot.2
  have hs : mid' ++ [prev] ++ post = mid' ++ prev :: post := by simp
  have hn := (nodup_append.mp ho.nodup).1
  have hpl : prev ∈ mid' ++ [prev] ++ post := by simp
  have hf : root ∈ mid' ++ [prev] := ho.list.first (by simp)
  have hne : findPtr ≠ root := by
    rcases hp.start with rfl | hin
    · exact fun h => ho.valid (i := root) (mem_append_left _ (mem_append_left _ hf)) h.symm
    · exact fun h => (nodup_append.mp hn).2.2 root hf findPtr hin h.symm
  have hpr : ¬ (!vaNodeIsValid prev) = true := valid_of_ne (ho.valid (mem_append_left _ hpl))
  have hnp : prev ≠ ptr := fun h => hpt (h ▸ hpl)
  rw [if_neg hne,if_neg hpr,get_set_ne _ hnp]
  rw [hs] at ho
  have hnx : findPtr = nextOf node prev := hp.same_root ho.list.behind
  obtain ⟨hm',hp'⟩ := ho.apart
  refine ⟨_,_,rfl,?_,(set_kept node _ hr).trans (set_kept _ _ ?_),?_⟩
  · have hl : mid' ++ [prev] ++ ptr :: post = mid' ++ prev :: ptr :: post := by simp
    rw [hl]
    exact ho.linkBehind hnx rfl
  · exact fun h => (ho.list_free (i := prev) (by simp)).2 (.tail ptr h)
  · have hl : mid' ++ [prev] ++ ptr :: post = mid' ++ prev :: (ptr :: post) := by simp
    have hps : prev ∉ ptr :: post := by simp [hnp,hp']
    rw [hl,map_set hm' hps,map_cons,extent_set_same,
      map_set_ne node _ (fun h => hot.1 (mem_append_left _ h)),map_set_ne node _ hot.2]
    simp [extentOf]

theorem insert_spec (mem : Memory) (ho : Owned node root l free rest) (base range : Nat) :
    InsertedOf (Fits node l ∧ base + range < 2 ^ 64) mem node ⟨base,range⟩ l rest
      (vaGenInsertAndCoalesce mem node root base range) := by
  have hok : Fits node l ∧ base + range < 2 ^ 64 → Fits node l ∧
      addU64 base range = (⟨base,range⟩ : Extent).stop := fun h => ⟨h.1,Nat.mod_eq_of_lt h.2⟩
  have hpl := findPlace_spec (e := ⟨base,range⟩) (nodeCount node) root ho.list ho.length_le hok
  simp only [vaGenInsertAndCoalesce]
  generalize findPlace node base (addU64 base range) (nodeCount node) root root = pl at hpl ⊢
  cases pl with
  | overlap => exact hpl
  | before i =>
    obtain ⟨mid,post,rfl,hc⟩ := hpl
    have hi : i ∈ mid ++ i :: post := by simp
    refine ⟨_,⟨_,ho.set hi _ rfl,set_kept node _ (ho.list_free hi).2⟩,?_⟩
    intro h
    obtain ⟨hs,hc⟩ := hc h
    have hf := h.1 i hi
    have hsm : addU64 (vaNodeGet node i).range range = (extentOf node i).range + range := by
      refine Nat.mod_eq_of_lt ?_
      simp only [extentOf,Extent.stop] at *
      omega
    rw [hc,map_set ho.apart.1 ho.apart.2]
    rw [hsm]
  | behind i =>
    obtain ⟨mid,post,rfl,hc⟩ := hpl
    obtain ⟨node',l',free',hd,ho',hk,hmp⟩ := coalesceBehind_spec (e := ⟨base,range⟩)
      (addU64 base range) ho (fun h => ⟨h.1,(hc h).1,h.2,Nat.mod_eq_of_lt h.2⟩)
    dsimp only at hd ⊢
    rw [hd]
    exact ⟨l',⟨free',ho',hk⟩,fun h => by rw [(hc h).2,hmp h]⟩
  | gap i p =>
    obtain ⟨mid,post,rfl,hp,hm,hc⟩ := hpl
    cases ha : vaNodeAlloc mem node with
    | none => exact ha
    | some r =>
      obtain ⟨ptr,node1⟩ := r
      obtain ⟨free1,ho1,hk1⟩ := ho.alloc ha
      have hkl : Kept node node1 (mid ++ post) := fun j hj => hk1 j (mem_append_left _ hj)
      have hkp : Kept node node1 post := fun j hj => hkl j (mem_append_right _ hj)
      have hkm : Kept node node1 mid := fun j hj => hkl j (mem_append_left _ hj)
      obtain ⟨node',root',hd,ho',hk,hmp⟩ := insertNode_spec ho1 (Path.kept hp hkp) hm
      dsimp only
      rw [hd]
      refine ⟨_,⟨_,ho',Kept.trans (fun j hj => hk1 j (mem_append_right _ hj)) hk⟩,?_⟩
      intro h
      rw [hc h,hmp,hkp.map_extent,hkm.map_extent]

end Mpss.Proofs.VaInsert
