import Mpss.Proofs.VaInsert

namespace Mpss.Proofs.VaSearch
open List hiding take range
open Library.Chains Library.Extents Micscif.VaGen Option
open VaLists VaInsert

variable {next : Nat} {prev : Option Nat}

theorem extent_relink :
    extentOf (vaNodeSet node i { vaNodeGet node i with next := next }) = extentOf node := by
  funext j
  rcases eq_or_ne j i with rfl | hne
  · rw [extent_set_same,extentOf]
  · simp [extentOf,get_set_ne _ hne]

theorem last_cons : mid.getLast?.or (some j) = (j :: mid).getLast?.or prev := by
  rw [getLast?_cons]
  cases mid.getLast? <;> rfl

/-- What first fit finds, against what taking does to the extents. -/
def HoleOf (node : VaNodeAllocator) (range : Nat) (suf : List Nat) (prev : Option Nat) :
    Option (Nat × Option Nat) → Prop
  | none => take range (suf.map (extentOf node)) = none
  | some (i,p) => ∃ mid post,suf = mid ++ i :: post ∧ p = mid.getLast?.or prev ∧
      range ≤ (extentOf node i).range ∧
      take range (suf.map (extentOf node)) = some ((extentOf node i).base,mid.map (extentOf node) ++
        if (extentOf node i).range = range then post.map (extentOf node)
        else ⟨(extentOf node i).base + range,(extentOf node i).range - range⟩ :: post.map
          (extentOf node))

theorem HoleOf.pass (h : HoleOf node range suf (some i) r)
    (hi : ¬ range ≤ (extentOf node i).range) : HoleOf node range (i :: suf) prev r := by
  cases r with
  | none =>
    simp only [HoleOf,map_cons,take] at h ⊢
    rw [if_neg hi,h]
    rfl
  | some q =>
    obtain ⟨mid,post,rfl,hp,hr,ht⟩ := h
    refine ⟨i :: mid,post,rfl,?_,hr,?_⟩
    · rw [hp,last_cons]
    · simp only [map_cons,take]
      rw [if_neg hi,ht]
      rfl

theorem findHole_spec (range : Nat) (prev : Option Nat)
    (hp : Path (nextOf node) invalidVaNodeIndex index (i :: suf))
    (hn : (i :: suf).length ≤ n) :
    HoleOf node range (i :: suf) prev (findHole node range n index prev) := by
  induction n generalizing index i suf prev with
  | zero => simp at hn
  | succ n ih =>
    obtain rfl := hp.root
    simp only [findHole]
    by_cases hr : (vaNodeGet node index).range ≥ range
    · rw [if_pos hr]
      refine ⟨[],suf,rfl,rfl,hr,?_⟩
      simp only [map_cons,take]
      rw [if_pos (show range ≤ (extentOf node index).range from hr)]
      rfl
    rw [if_neg hr]
    have ht := hp.tail
    cases suf with
    | nil =>
      have he : (vaNodeGet node index).next = invalidVaNodeIndex := ht.ended
      rw [he,if_pos invalid_not_valid]
      simp only [HoleOf,map_cons,take]
      rw [if_neg (show ¬ range ≤ (extentOf node index).range from hr)]
      rfl
    | cons j suf =>
      have hnx : (vaNodeGet node index).next = j := ht.root
      rw [if_neg (valid_of_ne (hnx ▸ ht.live j mem_cons_self))]
      exact HoleOf.pass (ih (some index) ht (Nat.le_of_succ_le_succ hn)) hr

theorem remove_first (ho : Owned node root (i :: post) free rest) :
    Owned (vaNodeFree node i) (nextOf node i) post (i :: free) rest ∧
    Kept node (vaNodeFree node i) rest := by
  obtain ⟨ho',hk⟩ := ho.behead.give
  exact ⟨ho',fun j hj => hk j (mem_append_right _ hj)⟩

theorem remove_behind (ho : Owned node root (mid ++ q :: i :: post) free rest) :
    Owned (vaNodeFree (vaNodeSet node q { vaNodeGet node q with next := nextOf node i }) i) root
      (mid ++ q :: post) (i :: free) rest ∧
    Kept node (vaNodeFree (vaNodeSet node q { vaNodeGet node q with next := nextOf node i }) i)
      rest := by
  have hq := (ho.list_free (i := q) (by simp)).2
  obtain ⟨ho',hk⟩ := (ho.bypass { vaNodeGet node q with next := nextOf node i } rfl).give
  exact ⟨ho',(set_kept node _ hq).trans (fun j hj => hk j (mem_append_right _ hj))⟩

theorem unlink_spec (ho : Owned node root (mid ++ i :: post) free rest) :
    ∃ node' root',unlink node root i mid.getLast? = some (root',node') ∧
      Owned node' root' (mid ++ post) (i :: free) rest ∧ Kept node node' rest ∧
      extentOf node' = extentOf node := by
  rcases eq_nil_or_concat' mid with rfl | ⟨mid',q,rfl⟩
  · obtain ⟨ho',hk⟩ := remove_first ho
    refine ⟨_,_,?_,ho',hk,extent_free⟩
    simp only [unlink]
    rw [if_pos ho.list.root]
    rfl
  have hf : root ∈ mid' ++ [q] := ho.list.first (by simp)
  have hne : root ≠ i := fun h => ho.apart.1 (h ▸ hf)
  simp only [append_assoc,cons_append,nil_append] at ho ⊢
  obtain ⟨ho',hk⟩ := remove_behind ho
  refine ⟨_,_,?_,ho',hk,?_⟩
  · simp only [unlink]
    rw [if_neg hne,getLast?_append,getLast?_singleton]
    rfl
  · rw [extent_free,extent_relink]

theorem sub_of_le (h : b ≤ a) (ha : a < 2 ^ 64) : subU64 a b = a - b := by
  simp only [subU64]
  omega

/-- `va_gen_alloc_internal` takes the range from the first hole that is large enough. -/
theorem allocInternal_spec (ho : Owned addr.allocator addr.holeList l free rest) :
    ∃ r addr',vaGenAllocInternal addr range = some (r,addr') ∧ addr'.base = addr.base ∧
      addr'.claimsList = addr.claimsList ∧
      (r = invalidVaPageIndex ∧ addr' = addr ∧
          (range = 0 ∨ take range (l.map (extentOf addr.allocator)) = none) ∨
        0 < range ∧ ∃ l',Relisted addr.allocator addr'.allocator addr'.holeList l' rest ∧
          (Fits addr.allocator l → take range (l.map (extentOf addr.allocator)) =
            some (r,l'.map (extentOf addr'.allocator)))) := by
  simp only [vaGenAllocInternal]
  set node := addr.allocator
  by_cases hn : range = 0 ∨ ¬ vaNodeIsValid addr.holeList
  · rw [if_pos hn]
    refine ⟨_,_,rfl,rfl,rfl,.inl ⟨rfl,rfl,?_⟩⟩
    rcases hn with hz | hv
    · exact .inl hz
    cases l with
    | nil => exact .inr rfl
    | cons i l =>
      have hi := ho.valid (i := i) (by simp)
      rw [← ho.list.root] at hi
      exact absurd (bne_iff_ne.mpr hi.symm) hv
  rw [if_neg hn]
  have hps : 0 < range := by omega
  cases l with
  | nil => exact absurd (.inr (by simp [vaNodeIsValid,ho.list.ended])) hn
  | cons i l =>
    have hfn := findHole_spec range none ho.list ho.length_le
    generalize findHole node range (nodeCount node) addr.holeList none = r at hfn ⊢
    cases r with
    | none => exact ⟨_,_,rfl,rfl,rfl,.inl ⟨rfl,rfl,.inr hfn⟩⟩
    | some q =>
      obtain ⟨index,prev⟩ := q
      obtain ⟨mid,post,hl,hp,hle,ht⟩ := hfn
      rw [or_none] at hp
      subst hp
      rw [hl] at ho ht ⊢
      dsimp only
      have hi : index ∈ mid ++ index :: post := by simp
      split_ifs with hex
      · obtain ⟨node',root',hun,ho',hk,he⟩ := unlink_spec ho
        rw [hun]
        refine ⟨_,_,rfl,rfl,rfl,.inr ⟨hps,_,⟨_,ho',hk⟩,?_⟩⟩
        intro _
        rw [ht,if_pos (show (extentOf node index).range = range from hex)]
        simp only [he,map_append]
        rfl
      · refine ⟨_,_,rfl,rfl,rfl,.inr ⟨hps,_,⟨_,ho.set hi _ rfl,set_kept _ _ (ho.list_free hi).2⟩,?_⟩⟩
        intro hf
        have hft := hf index hi
        have hb : addU64 (vaNodeGet node index).base range =
            (extentOf node index).base + range := by
          refine Nat.mod_eq_of_lt ?_
          simp only [Extent.stop,extentOf] at *
          omega
        have hr : subU64 (vaNodeGet node index).range range =
            (extentOf node index).range - range := by
          refine sub_of_le hle ?_
          simp only [Extent.stop,extentOf] at *
          omega
        rw [ht,if_neg (show ¬ (extentOf node index).range = range from hex),
          map_set ho.apart.1 ho.apart.2]
        rw [hb,hr]
        rfl

/-- What the search for a claim finds: where no sum wraps, the extent that holds the range. -/
def ClaimOf (ok : Prop) (node : VaNodeAllocator) (e : Extent) (suf : List Nat) (prev : Option Nat) :
    Option (Nat × Option Nat) → Prop
  | none => ok → Tidy (suf.map (extentOf node)) →
      ∀ f ∈ suf.map (extentOf node),¬ (f.base ≤ e.base ∧ e.stop ≤ f.stop)
  | some (i,p) => ∃ mid post,suf = mid ++ i :: post ∧ p = mid.getLast?.or prev ∧
      (ok → (extentOf node i).base ≤ e.base ∧ e.stop ≤ (extentOf node i).stop)

theorem ClaimOf.pass (h : ClaimOf ok node e suf (some i) r)
    (hi : ok → ¬ ((extentOf node i).base ≤ e.base ∧ e.stop ≤ (extentOf node i).stop)) :
    ClaimOf ok node e (i :: suf) prev r := by
  cases r with
  | none =>
    intro hok ht f hf
    rcases mem_cons.mp hf with rfl | hf
    · exact hi hok
    · exact h hok (tidy_cons.mp ht).2.2 f hf
  | some q =>
    obtain ⟨mid,post,rfl,hp,hc⟩ := h
    exact ⟨i :: mid,post,rfl,by rw [hp,last_cons],hc⟩

theorem no_later {e f : Extent} (ht : Tidy (f :: rest)) (hf : ¬ (f.base ≤ e.base ∧ e.stop ≤ f.stop))
    (he : e.base ≤ f.stop) : ∀ g ∈ f :: rest,¬ (g.base ≤ e.base ∧ e.stop ≤ g.stop) := by
  intro g hg
  rcases mem_cons.mp hg with rfl | hg
  · exact hf
  · have := (tidy_cons.mp ht).2.1 g hg
    omega

theorem findClaim_spec (n : Nat) (prev : Option Nat)
    (hp : Path (nextOf node) invalidVaNodeIndex index suf)
    (hn : suf.length ≤ n) (hok : ok → Fits node suf ∧ e.stop < 2 ^ 64) :
    ClaimOf ok node e suf prev (findClaim node e.base e.range n index prev) := by
  induction n generalizing index suf prev with
  | zero =>
    obtain rfl : suf = [] := length_eq_zero_iff.mp (by omega)
    intro _ _ f hf
    cases hf
  | succ n ih =>
    cases suf with
    | nil =>
      obtain rfl := hp.ended
      intro _ _ f hf
      cases hf
    | cons i suf =>
      obtain rfl := hp.root
      set v := vaNodeGet node index
      have hs : ok → addU64 v.base v.range =
          (extentOf node index).stop := fun h => (hok h).1.sum mem_cons_self
      have he : ok → addU64 e.base e.range = e.stop := fun h => Nat.mod_eq_of_lt (hok h).2
      have hb : v.base = (extentOf node index).base := rfl
      have htl : ok → Fits node suf ∧ e.stop < 2 ^ 64 :=
        fun h => ⟨fun j hj => (hok h).1 j (.tail index hj),(hok h).2⟩
      rw [findClaim,if_neg (valid_of_ne (hp.live index mem_cons_self))]
      by_cases h1 : v.base ≤ e.base ∧ addU64 v.base v.range ≥ addU64 e.base e.range
      · rw [if_pos h1]
        refine ⟨[],suf,rfl,rfl,fun h => ?_⟩
        rw [hs h,he h] at h1
        exact h1
      rw [if_neg h1]
      have ho : ok → ¬ ((extentOf node index).base ≤ e.base ∧
        e.stop ≤ (extentOf node index).stop) := by
        intro h
        rw [hs h,he h] at h1
        exact h1
      by_cases h2 : v.base > addU64 e.base e.range
      · rw [if_pos h2]
        intro h ht
        rw [he h,hb] at h2
        refine no_later ht (ho h) ?_
        simp only [Extent.stop] at *
        omega
      rw [if_neg h2]
      by_cases h3 : if v.base < e.base then
          addU64 v.base v.range > e.base
          else addU64 e.base e.range > v.base
      · rw [if_pos h3]
        intro h ht
        rw [hs h,he h,hb] at h3
        refine no_later ht (ho h) ?_
        simp only [Extent.stop] at *
        split at h3 <;> omega
      rw [if_neg h3]
      exact ClaimOf.pass (ih (some index) hp.tail (Nat.le_of_succ_le_succ hn) htl) ho

theorem trimClaim_spec (addr : VaGenAddr)
    (ho : Owned addr.allocator addr.claimsList (mid ++ i :: post) free rest) :
    (trimClaim addr range i mid.getLast?).base = addr.base ∧
    (trimClaim addr range i mid.getLast?).holeList = addr.holeList ∧
    ∃ l',Relisted addr.allocator (trimClaim addr range i mid.getLast?).allocator
        (trimClaim addr range i mid.getLast?).claimsList l' rest ∧
      l'.map (extentOf (trimClaim addr range i mid.getLast?).allocator) =
        mid.map (extentOf addr.allocator) ++
          ((if subU64 (vaNodeGet addr.allocator i).range range = 0 then []
            else [⟨addU64 (vaNodeGet addr.allocator i).base range,
              subU64 (vaNodeGet addr.allocator i).range range⟩]) ++
          post.map (extentOf addr.allocator)) := by
  have hi : i ∈ mid ++ i :: post := by simp
  obtain ⟨hmd,hps⟩ := ho.apart
  have hr := (ho.list_free hi).2
  set g := vaNodeGet addr.allocator i
  simp only [trimClaim]
  generalize hn : ({ g with
      base := addU64 g.base range
      range := subU64 g.range range } : Node) = n
  have hnx : n.next = g.next := by rw [← hn]
  have hs : Owned (vaNodeSet addr.allocator i n) addr.claimsList (mid ++ i :: post) free rest :=
    ho.set hi n hnx
  have hln : nextOf (vaNodeSet addr.allocator i n) i = g.next := by
    rw [nextOf,get_set_same,hnx]
  split
  · have hm := map_set_ne addr.allocator n hmd
    have hp := map_set_ne addr.allocator n hps
    rcases eq_nil_or_concat' mid with rfl | ⟨mid',q,rfl⟩
    · obtain ⟨ho',hk⟩ := remove_first hs
      rw [hln] at ho'
      rw [getLast?_nil]
      refine ⟨rfl,rfl,_,⟨_,ho',(set_kept _ n hr).trans hk⟩,?_⟩
      rw [extent_free,hp]
      rfl
    simp only [append_assoc,cons_append,nil_append] at hs
    obtain ⟨ho',hk⟩ := remove_behind hs
    rw [hln] at ho' hk
    rw [getLast?_append,getLast?_singleton,some_or]
    refine ⟨rfl,rfl,_,⟨_,ho',(set_kept _ n hr).trans hk⟩,?_⟩
    have hl : mid' ++ q :: post = mid' ++ [q] ++ post := by simp
    rw [hl,map_append,extent_free,extent_relink,hm,hp]
    rfl
  · refine ⟨rfl,rfl,_,⟨_,hs,set_kept _ n hr⟩,?_⟩
    rw [map_set hmd hps,← hn]
    rfl

theorem splitClaim_spec (addr : VaGenAddr)
    (ho : Owned node addr.claimsList (mid ++ i :: post) free (newIndex :: rest)) :
    Relisted node (splitClaim addr base range i newIndex node).allocator addr.claimsList
        (mid ++ i :: newIndex :: post) rest ∧
      (mid ++ i :: newIndex :: post).map (extentOf
        (splitClaim addr base range i newIndex node).allocator) =
        mid.map (extentOf node) ++ ([⟨(extentOf node i).base,subU64 base (extentOf node i).base⟩,
          ⟨addU64 base range,subU64 (extentOf node i).range (addU64 base range)⟩] ++
          post.map (extentOf node)) := by
  have hn := (nodup_append.mp ho.nodup)
  have hnw : newIndex ∉ mid ++ i :: post := fun h => hn.2.2 newIndex h newIndex (by simp) rfl
  have hr : newIndex ∉ rest := (nodup_cons.mp (nodup_append.mp hn.2.1).2.1).1
  have hi : i ∈ mid ++ i :: post := by simp
  have hir : i ∉ rest := fun h => (ho.list_free hi).2 (.tail newIndex h)
  obtain ⟨hm,hp⟩ := ho.apart
  obtain ⟨hnm,hni,hnp⟩ : newIndex ∉ mid ∧ newIndex ≠ i ∧ newIndex ∉ post := by simpa using hnw
  refine ⟨⟨free,ho.linkBehind rfl rfl,(set_kept _ _ hr).trans (set_kept _ _ hir)⟩,?_⟩
  have hp' : i ∉ newIndex :: post := by simp [hp,hni.symm]
  simp only [splitClaim]
  rw [map_set hm hp',map_cons,extent_set_same,map_set_ne node _ hnm,map_set_ne node _ hnp]
  rfl

/-- The new node of a split gets the right range only in a claim that begins at page 0. -/
def SplitOk (f e : Extent) : Prop := f.base < e.base → e.stop < f.stop → f.base = 0

/-- What freeing a claim does to the list of nodes, against the extents. -/
def FreedOf (mem : Memory) (addr : VaGenAddr) (e : Extent) (l rest : List Nat) :
    Option VaGenAddr → Prop
  | none => vaNodeAlloc mem addr.allocator = none
  | some addr' => addr'.base = addr.base ∧ addr'.holeList = addr.holeList ∧
      ∃ l',Relisted addr.allocator addr'.allocator addr'.claimsList l' rest ∧
        (Fits addr.allocator l → e.stop < 2 ^ 64 → 0 < e.range →
          Tidy (l.map (extentOf addr.allocator)) →
          (∀ x,e.Has x → Covered (l.map (extentOf addr.allocator)) x) →
          (∀ f ∈ l.map (extentOf addr.allocator),SplitOk f e) →
          Tidy (l'.map (extentOf addr'.allocator)) ∧
            ∀ x,Covered (l'.map (extentOf addr'.allocator)) x ↔
              Covered (l.map (extentOf addr.allocator)) x ∧ ¬ e.Has x)

theorem freeClaim_spec (mem : Memory) (base range : Nat)
    (ho : Owned addr.allocator addr.claimsList l free rest) :
    FreedOf mem addr ⟨base,range⟩ l rest (vaGenFreeClaim mem addr base range) := by
  obtain ⟨alc,hole,claims,pages⟩ := addr
  have hsm : Relisted alc alc claims l rest := ⟨free,ho,fun _ _ => rfl⟩
  have hfn := findClaim_spec (e := ⟨base,range⟩) (nodeCount alc) none ho.list ho.length_le
    (fun h : Fits alc l ∧ base + range < 2 ^ 64 => h)
  simp only [vaGenFreeClaim]
  split
  · refine ⟨rfl,rfl,l,hsm,?_⟩
    intro _ _ hps
    simp only at hps
    omega
  generalize findClaim alc base range (nodeCount alc) claims none = r at hfn ⊢
  cases r with
  | none =>
    refine ⟨rfl,rfl,l,hsm,?_⟩
    intro hf he hps ht hc _
    obtain ⟨pre,f,post,hl,hb,hs⟩ := ht.holds hps hc
    exact absurd ⟨hb,hs⟩ (hfn ⟨hf,he⟩ ht f (by simp [hl]))
  | some q =>
    obtain ⟨index,prev⟩ := q
    obtain ⟨mid,post,rfl,hp,hin⟩ := hfn
    rw [or_none] at hp
    subst hp
    have hi : index ∈ mid ++ index :: post := by simp
    set f := extentOf alc index with hfx
    have hct : ∀ m : List Extent,Fits alc (mid ++ index :: post) → base + range < 2 ^ 64 →
        0 < range → Tidy ((mid ++ index :: post).map (extentOf alc)) →
        m = mid.map (extentOf alc) ++ (cut f ⟨base,range⟩ ++ post.map (extentOf alc)) →
        Tidy m ∧ ∀ x,Covered m x ↔ Covered ((mid ++ index :: post).map (extentOf alc)) x ∧
          ¬ (⟨base,range⟩ : Extent).Has x := by
      rintro m hf he hps ht rfl
      obtain ⟨hb,hs⟩ := hin ⟨hf,he⟩
      rw [map_append,map_cons] at ht ⊢
      exact ht.cut hps hb hs
    have hsb : Fits alc (mid ++ index :: post) → range ≤ f.range →
        subU64 (vaNodeGet alc index).range range = f.range - range := by
      intro hf hle
      have hft := hf index hi
      refine sub_of_le hle ?_
      simp only [Extent.stop,extentOf] at *
      omega
    dsimp only
    split
    · rename_i hbs
      obtain ⟨hb,hh,l',hre,hm⟩ := trimClaim_spec ⟨alc,hole,claims,pages⟩ ho
      refine ⟨hb,hh,l',hre,?_⟩
      intro hf he hps ht _ _
      refine hct _ hf he hps ht ?_
      obtain ⟨_,hs⟩ := hin ⟨hf,he⟩
      have hle : range ≤ f.range := by
        simp only [Extent.stop,extentOf] at *
        omega
      have had : addU64 (vaNodeGet alc index).base range = base + range := by
        rw [hbs]
        exact Nat.mod_eq_of_lt he
      have hz : f.range - range = 0 ↔ f.range = range := by omega
      rw [hm,hsb hf hle,had,cut,if_pos (show f.base = base from hbs)]
      simp only [hz]
      rfl
    rename_i hbs
    split_ifs with hst
    · refine ⟨rfl,rfl,_,⟨free,ho.set hi _ rfl,set_kept _ _ (ho.list_free hi).2⟩,?_⟩
      intro hf he hps ht _ _
      refine hct _ hf he hps ht ?_
      obtain ⟨hb,_⟩ := hin ⟨hf,he⟩
      rw [hf.sum hi,show addU64 base range = base + range from Nat.mod_eq_of_lt he] at hst
      have hle : range ≤ f.range := by
        simp only [Extent.stop,extentOf] at *
        omega
      rw [map_set ho.apart.1 ho.apart.2,cut,
        if_neg (show ¬ f.base = base from hbs),
        if_pos (show f.stop = (⟨base,range⟩ : Extent).stop from hst)]
      rw [hsb hf hle]
      rfl
    cases ha : vaNodeAlloc mem alc with
    | none => exact ha
    | some r =>
      obtain ⟨newIndex,node⟩ := r
      obtain ⟨free',ho',hk⟩ := ho.alloc ha
      have hkl : Kept alc node (mid ++ index :: post) := fun j hj =>
        hk j (mem_append_left _ hj)
      obtain ⟨⟨free'',ho'',hk'⟩,hm⟩ := splitClaim_spec ⟨alc,hole,claims,pages⟩ ho'
      refine ⟨rfl,rfl,_,⟨free'',ho'',Kept.trans (fun j hj => hk j (mem_append_right _ hj)) hk'⟩,?_⟩
      intro hf he hps ht _ hsp
      refine hct _ hf he hps ht ?_
      obtain ⟨hb,hs⟩ := hin ⟨hf,he⟩
      rw [hf.sum hi,show addU64 base range = base + range from Nat.mod_eq_of_lt he] at hst
      have hn : extentOf node index = f := by simp [hfx,extentOf,hkl index hi]
      have hlt : f.base < base := lt_of_le_of_ne hb hbs
      have hen : base + range < f.stop := lt_of_le_of_ne hs (Ne.symm hst)
      have hzr : f.base = 0 := hsp f (by simp [hfx]) hlt hen
      have hft : f.stop < _ := hf index hi
      have hlf : subU64 base f.base = base - f.base := sub_of_le hb (by omega)
      have hr : subU64 f.range (base + range) = f.stop - (base + range) := by
        rw [sub_of_le]
        all_goals
          simp only [Extent.stop] at *
          omega
      rw [hm,hn,show addU64 base range = base + range from Nat.mod_eq_of_lt he,hlf,hr,
        Kept.map_extent (fun j hj => hkl j (mem_append_left _ hj)),
        Kept.map_extent (fun j hj => hkl j (by simp [hj])),cut,
        if_neg (show ¬ f.base = base from hbs),
        if_neg (show ¬ f.stop = (⟨base,range⟩ : Extent).stop from hst)]
      rfl

end Mpss.Proofs.VaSearch
