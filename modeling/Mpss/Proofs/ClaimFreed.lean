import Mpss.Proofs.VaSearch

namespace Mpss.Proofs.ClaimFreed
open Library.Chains Library.Extents Micscif.VaGen List
open VaLists VaInsert VaSearch

variable {addr : VaGenAddr} {e f : Extent}

def Inside (f e : Extent) : Prop := f.base ≤ e.base ∧ e.stop ≤ f.stop

/-- A well-formed list of claims: in order, with gaps and without wrap-around. -/
def WellFormed (addr : VaGenAddr) (l : List Nat) : Prop :=
  Path (nextOf addr.allocator) invalidVaNodeIndex addr.claimsList l ∧ Fits addr.allocator l ∧
    Tidy (l.map (extentOf addr.allocator))

/-- A range inside one node is taken out of the union; any other leaves everything as it is. -/
def FreesExactly (mem : Memory) (addr : VaGenAddr) (l : List Nat) (e : Extent) : Prop :=
  ((∃ f ∈ l.map (extentOf addr.allocator),Inside f e) →
    ∃ addr' l',vaGenFreeClaim mem addr e.base e.range = some addr' ∧ WellFormed addr' l' ∧
      ∀ x,Covered (l'.map (extentOf addr'.allocator)) x ↔
        Covered (l.map (extentOf addr.allocator)) x ∧ ¬ e.Has x) ∧
  ((∀ f ∈ l.map (extentOf addr.allocator),¬ Inside f e) →
    vaGenFreeClaim mem addr e.base e.range = some addr)

/-- A node is only split if it begins at page 0 and a second node can be had. -/
def Splits (mem : Memory) (addr : VaGenAddr) (l : List Nat) (e : Extent) : Prop :=
  ∀ f ∈ l.map (extentOf addr.allocator),f.base < e.base → e.stop < f.stop →
    f.base = 0 ∧ (vaNodeAlloc mem addr.allocator).isSome

theorem Tidy.only_inside (ht : Tidy (pre ++ g :: post)) (he : 0 < e.range) (hg : Inside g e)
    (hm : f ∈ pre ++ g :: post) (hf : Inside f e) : f = g := by
  obtain ⟨_,hp,hgp⟩ := tidy_append.mp ht
  simp only [Inside,Extent.stop] at *
  rcases mem_append.mp hm with hm | hm
  · have := hgp f hm g mem_cons_self
    omega
  rcases mem_cons.mp hm with rfl | hm
  · rfl
  · have : g.base + g.range < f.base := (tidy_cons.mp hp).2.1 f hm
    omega

/-- Two nodes are left of one exactly if the second ends where the old one did. -/
theorem Tidy.split_ends (ht : Tidy (pre ++ f :: post)) (hs : e.stop < f.stop)
    (hc : ∀ x,Covered (pre ++ ([⟨f.base,n⟩,⟨e.stop,r⟩] ++ post)) x ↔
      Covered (pre ++ f :: post) x ∧ ¬ e.Has x) (hb : f.base < e.base) (hn : n = e.base - f.base) :
    e.stop + r = f.stop := by
  obtain ⟨_,hp,hgp⟩ := tidy_append.mp ht
  have hpr : ∀ x,f.base ≤ x → ¬ Covered pre x := by
    rintro x hx ⟨g,hg,_,hlt⟩
    have := hgp g hg f mem_cons_self
    omega
  have hps : ∀ x ≤ f.stop,¬ Covered post x := by
    rintro x hx ⟨g,hg,hle,_⟩
    have := (tidy_cons.mp hp).2.1 g hg
    omega
  simp only [covered_append,covered_cons,covered_nil,or_false,Extent.Has,Extent.stop] at *
  rcases lt_trichotomy (e.base + e.range + r) (f.base + f.range) with hlt | heq | hgt
  · have hx := hc (e.base + e.range + r)
    simp only [hpr (e.base + e.range + r) (by omega),
      hps (e.base + e.range + r) (by omega),false_or,or_false] at hx
    omega
  · exact heq
  · have hx := hc (f.base + f.range)
    simp only [hpr (f.base + f.range) (by omega),hps (f.base + f.range) le_rfl,
      false_or,or_false] at hx
    omega

section search
variable (ho : Owned addr.allocator addr.claimsList l free rest) (hf : Fits addr.allocator l)
  (ht : Tidy (l.map (extentOf addr.allocator))) (hs : e.stop < 2 ^ 64)
include ho hf ht hs

theorem found : (∃ mid i post,l = mid ++ i :: post ∧ Inside (extentOf addr.allocator i) e ∧
      findClaim addr.allocator e.base e.range (nodeCount addr.allocator) addr.claimsList none =
        some (i,mid.getLast?)) ∨
    (∀ f ∈ l.map (extentOf addr.allocator),¬ Inside f e) ∧
      findClaim addr.allocator e.base e.range (nodeCount addr.allocator) addr.claimsList
      none = none := by
  have hfn := findClaim_spec (e := e) (nodeCount addr.allocator) none ho.list ho.length_le
    (fun _ : True => ⟨hf,hs⟩)
  cases hr : findClaim addr.allocator e.base e.range
    (nodeCount addr.allocator) addr.claimsList none with
  | none =>
    rw [hr] at hfn
    exact .inr ⟨hfn trivial ht,rfl⟩
  | some q =>
    rw [hr] at hfn
    obtain ⟨mid,post,hl,hp,hin⟩ := hfn
    rw [Option.or_none] at hp
    exact .inl ⟨mid,q.1,post,hl,hin trivial,by rw [← hp]⟩

theorem free_outside (hn : ∀ f ∈ l.map (extentOf addr.allocator),¬ Inside f e) :
    vaGenFreeClaim mem addr e.base e.range = some addr := by
  rcases found ho hf ht hs with ⟨mid,i,post,rfl,hin,_⟩ | ⟨_,hr⟩
  · exact absurd hin (hn _ (by simp))
  · rw [vaGenFreeClaim,hr]
    exact ite_self _

/-- A node with pages left on both sides is split. -/
theorem free_middle (mem : Memory) (hp : 0 < e.range) (hm : f ∈ l.map (extentOf addr.allocator))
    (hb : f.base < e.base) (hlt : e.stop < f.stop) : ∃ mid i post,l = mid ++ i :: post ∧
      extentOf addr.allocator i = f ∧ vaGenFreeClaim mem addr e.base e.range =
        (vaNodeAlloc mem addr.allocator).map fun (newIndex,node) =>
          splitClaim addr e.base e.range i newIndex node := by
  have hin : Inside f e := ⟨hb.le,hlt.le⟩
  rcases found ho hf ht hs with ⟨mid,i,post,rfl,hi,hr⟩ | ⟨hn,_⟩
  · rw [map_append,map_cons] at ht hm
    obtain rfl := Tidy.only_inside ht hp hi hm hin
    refine ⟨mid,i,post,rfl,rfl,?_⟩
    have hne : ¬ (vaNodeGet addr.allocator i).base = e.base := ne_of_lt hb
    have hst : ¬ addU64 (vaNodeGet addr.allocator i).base (vaNodeGet addr.allocator i).range =
        addU64 e.base e.range := by
      rw [hf.sum (by simp),show addU64 e.base e.range = e.stop from Nat.mod_eq_of_lt hs]
      exact ne_of_gt hlt
    rw [vaGenFreeClaim,if_neg (ne_of_gt hp),hr]
    dsimp only
    rw [if_neg hne,if_neg hst]
  · exact absurd hin (hn f hm)

theorem free_none (hr : vaGenFreeClaim mem addr e.base e.range = none) :
    ∃ f ∈ l.map (extentOf addr.allocator),f.base < e.base ∧ e.stop < f.stop := by
  rcases found ho hf ht hs with ⟨mid,i,post,rfl,hi,hfd⟩ | ⟨hn,_⟩
  · refine ⟨extentOf addr.allocator i,by simp,?_⟩
    rw [vaGenFreeClaim] at hr
    split at hr
    · cases hr
    rw [hfd] at hr
    dsimp only at hr
    split at hr
    · cases hr
    rename_i hne
    split at hr
    · cases hr
    rename_i hst
    rw [hf.sum (by simp),show addU64 e.base e.range = e.stop from Nat.mod_eq_of_lt hs] at hst
    exact ⟨lt_of_le_of_ne hi.1 hne,lt_of_le_of_ne hi.2 (Ne.symm hst)⟩
  · rw [free_outside ho hf ht hs hn] at hr
    cases hr

end search

theorem fits_of_covered {addr' : VaGenAddr} (ht : Tidy (l'.map (extentOf addr'.allocator)))
    (hf : Fits addr.allocator l) (hc : ∀ x,Covered (l'.map (extentOf addr'.allocator)) x →
      Covered (l.map (extentOf addr.allocator)) x) : Fits addr'.allocator l' := by
  intro i hi
  have hm := mem_map_of_mem (f := extentOf addr'.allocator) hi
  have hp := ht.1 _ hm
  obtain ⟨g,hg,_,hlt⟩ := hc ((extentOf addr'.allocator i).stop - 1) ⟨_,hm,by
    simp only [Extent.Has,Extent.stop]
    omega⟩
  obtain ⟨j,hj,rfl⟩ := mem_map.mp hg
  have := hf j hj
  omega

theorem frees_exactly_iff (mem : Memory) (ho : Owned addr.allocator addr.claimsList l free rest)
    (hf : Fits addr.allocator l) (ht : Tidy (l.map (extentOf addr.allocator)))
    (hs : e.stop < 2 ^ 64) (hpos : 0 < e.range) : FreesExactly mem addr l e ↔ Splits mem addr l e := by
  constructor
  · rintro ⟨hin,_⟩ f hm hb hlt
    obtain ⟨addr',l',hr,⟨hp,_,_⟩,hc⟩ := hin ⟨f,hm,hb.le,hlt.le⟩
    obtain ⟨mid,i,post,rfl,rfl,hr'⟩ := free_middle ho hf ht hs mem hpos hm hb hlt
    rw [hr'] at hr
    cases ha : vaNodeAlloc mem addr.allocator with
    | none =>
      rw [ha] at hr
      cases hr
    | some q =>
      obtain ⟨newIndex,node⟩ := q
      rw [ha] at hr
      obtain rfl := Option.some.inj hr
      obtain ⟨_,ho',hk⟩ := ho.alloc ha
      have hkl : Kept addr.allocator node (mid ++ i :: post) := fun j hj =>
        hk j (mem_append_left _ hj)
      obtain ⟨⟨_,ho'',_⟩,hmp⟩ := splitClaim_spec addr ho'
      obtain rfl := hp.unique ho''.list
      have hn : extentOf node i = extentOf addr.allocator i := by simp [extentOf,hkl i (by simp)]
      rw [hmp,hn,show addU64 e.base e.range = e.stop from Nat.mod_eq_of_lt hs,
        Kept.map_extent (fun j hj => hkl j (mem_append_left _ hj)),
        Kept.map_extent (fun j hj => hkl j (by simp [hj])),map_append,map_cons] at hc
      rw [map_append,map_cons] at ht
      have he := Tidy.split_ends ht hlt hc hb (sub_of_le hb.le (by
        simp only [Extent.stop] at *
        omega))
      refine ⟨?_,rfl⟩
      simp only [subU64,Extent.stop] at *
      omega
  · intro hsp
    refine ⟨?_,free_outside ho hf ht hs⟩
    rintro ⟨f,hm,hb,hst⟩
    have hfr := freeClaim_spec mem e.base e.range ho
    cases hr : vaGenFreeClaim mem addr e.base e.range with
    | none =>
      rw [hr] at hfr
      obtain ⟨g,hg,hgb,hgs⟩ := free_none ho hf ht hs hr
      have hsm := (hsp g hg hgb hgs).2
      rw [show vaNodeAlloc mem addr.allocator = none from hfr] at hsm
      cases hsm
    | some addr' =>
      rw [hr] at hfr
      obtain ⟨_,_,l',⟨_,ho',_⟩,hex⟩ := hfr
      obtain ⟨ht',hc⟩ := hex hf hs hpos ht
        (fun x hx => ⟨f,hm,hb.trans hx.1,lt_of_lt_of_le hx.2 hst⟩)
        (fun g hg hgb hgs => (hsp g hg hgb hgs).1)
      exact ⟨addr',l',rfl,⟨ho'.list,fits_of_covered ht' hf (fun x hx => ((hc x).mp hx).1),ht'⟩,hc⟩

def oneClaim (base range : Nat) : VaGenAddr :=
  { allocator :=
      { slabDirectory := fun _ i =>
          if i = 0 then ⟨invalidVaNodeIndex,base,range⟩ else ⟨invalidVaNodeIndex,0,0⟩
        numSlabs := 1
        numFreeSlabs := 0
        freeList := 1 }
    holeList := invalidVaNodeIndex
    claimsList := 0
    base := 0 }

theorem oneClaim_owned (base range : Nat) :
    Owned (oneClaim base range).allocator (oneClaim base range).claimsList [0] [1] [] :=
  { list := .cons 0 [] (by decide) .nil
    spare := .cons 1 [] (by decide) .nil
    nodup := by decide
    bound := by
      intro i hi
      have : nodeCount (oneClaim base range).allocator = 128 := rfl
      simp only [mem_append,mem_singleton,not_mem_nil,or_false] at hi
      omega
    small := by
      show 1 + 0 ≤ 2 ^ 22
      decide }

theorem middle_of_first_freed : FreesExactly 4096 (oneClaim 0 8) [0] ⟨2,3⟩ := by
  refine (frees_exactly_iff 4096 (oneClaim_owned 0 8) ?_ ?_ (by decide) (by decide)).mpr ?_
  · intro i hi
    rw [mem_singleton.mp hi]
    decide
  · exact tidy_cons.mpr ⟨by decide,by simp,tidy_nil⟩
  · intro f hf _ _
    rw [mem_singleton.mp hf]
    exact ⟨rfl,rfl⟩

/-- The claims 16 to 23, of which 18 to 20 are freed: the node behind them is 2 ^ 64 - 13 pages. -/
theorem middle_freed_wrongly : ¬ FreesExactly 4096 (oneClaim 16 8) [0] ⟨18,3⟩ := by
  rintro ⟨hin,-⟩
  obtain ⟨addr',l',hr,⟨hp,-⟩,hc⟩ := hin ⟨⟨16,8⟩,mem_singleton_self _,by decide,by decide⟩
  cases hr
  cases hp.unique (.cons 0 [1] (by decide) (.cons 1 [] (by decide) .nil))
  obtain ⟨⟨f,hf,hx⟩,-⟩ := (hc 24).mp ⟨⟨21,2 ^ 64 - 13⟩,by decide,by decide,by decide⟩
  cases mem_singleton.mp hf
  exact absurd hx.2 (by decide)

end Mpss.Proofs.ClaimFreed
