import Mpss.Proofs.SpaceLists

namespace Mpss.Proofs.OffsetsConserved
open Library.Chains Library.Extents Library.Runs Option
open Micscif.VaGen
open VaInsert VaSearch SpaceLists

/-- Holes and allocations share out the pages of the range. -/
structure Shared (range : Nat) (s : State) : Prop where
  tidy : Tidy (holes s)
  apart : Apart (allocPages s)
  whole : ∀ x,Covered (holes s) x ∨ Covered (allocPages s) x ↔ x < range / pageSize
  disjoint : ∀ x,Covered (holes s) x → ¬ Covered (allocPages s) x

/-- No page is lost, and no node is on two of the lists. -/
structure Conserved (base range : Nat) (s : State) : Prop where
  shared : Shared range s
  inside : ∀ r ∈ s.allocs,base ≤ r.1 ∧ (r.1 - base) % pageSize = 0 ∧
    r.1 + numPages r.2 * pageSize ≤ base + range
  nodes : (nodesFrom s.addr.allocator s.addr.holeList ++
    (nodesFrom s.addr.allocator s.addr.claimsList ++
    nodesFrom s.addr.allocator s.addr.allocator.freeList)).Nodup

structure Inv (base range : Nat) (s : State) : Prop where
  lists : ∃ h c free,Lists s.addr h c free
  origin : s.addr.base = base
  shared : Shared range s
  aligned : ∀ r ∈ s.allocs,base ≤ r.1 ∧ (r.1 - base) % pageSize = 0 ∧ 0 < numPages r.2
  claims : ∀ r ∈ s.claims,r.1 < base

theorem Inv.keep {t : State} (h : Inv base range s) (hl : Lists s.addr hs c free) (hl' : Lists t.addr hs c' free')
    (hb : t.addr.base = s.addr.base) (ha : t.allocs = s.allocs) (hc : ∀ r ∈ t.claims,r.1 < base)
    (hk : hs.map (extentOf t.addr.allocator) = hs.map (extentOf s.addr.allocator)) :
    Inv base range t := by
  have hn : holes t = holes s := by rw [holes,hl'.extents_holes,hk,holes,hl.extents_holes]
  have hp : allocPages t = allocPages s := by rw [allocPages,ha,hb,allocPages]
  obtain ⟨ht,hap,hw,hd⟩ := h.shared
  refine ⟨⟨_,_,_,hl'⟩,hb.trans h.origin,⟨hn ▸ ht,hp ▸ hap,?_,?_⟩,ha ▸ h.aligned,hc⟩
  · simpa only [hn,hp] using hw
  · simpa only [hn,hp] using hd

section
variable (h : Shared range s)
include h

theorem Shared.hole_stop (hf : f ∈ holes s) : f.stop ≤ range / pageSize :=
  h.tidy.stop_le hf (fun x hx => (h.whole x).mp (.inl hx))

theorem Shared.alloc_stop (he : e ∈ allocPages s) (hp : 0 < e.range) : e.stop ≤ range / pageSize := by
  have hx : Covered (allocPages s) (e.stop - 1) := by
    refine ⟨e,he,?_⟩
    simp only [Extent.Has,Extent.stop]
    omega
  have := (h.whole _).mp (.inr hx)
  omega

theorem Shared.fits (hr : range < 2 ^ 64) (hl : Lists s.addr hs c free) :
    Fits s.addr.allocator hs := by
  intro i hi
  have hn : holes s = hs.map (extentOf s.addr.allocator) := hl.extents_holes
  have hst := h.hole_stop (hn ▸ List.mem_map_of_mem hi)
  simp only [pageSize] at hst
  omega

theorem Shared.take (hn : 0 < n) (ht : take n (holes s) = some (i,l))
    (hh : holes t = l) (ha : allocPages t = ⟨i,n⟩ :: allocPages s) : Shared range t := by
  obtain ⟨htd,hl,hin⟩ := take_some hn h.tidy ht
  have ho : ∀ x,(⟨i,n⟩ : Extent).Has x → ¬ Covered (allocPages s) x := fun x hx =>
    h.disjoint x (hin x hx)
  refine ⟨hh ▸ htd,?_,?_,?_⟩
  · rw [ha]
    exact apart_cons.mpr ⟨ho,h.apart⟩
  · intro x
    rw [hh,ha,hl,covered_cons,← h.whole]
    tauto
  · intro x hx
    rw [hh,hl] at hx
    rw [ha,covered_cons]
    exact fun hc => hc.elim hx.2 (h.disjoint x hx.1)

theorem Shared.give (he : 0 < e.range) (hp : (allocPages s).Perm (e :: allocPages t))
    (hc : coalesce e (holes s) = some (holes t)) : Shared range t := by
  obtain ⟨hap,hin,hl⟩ := h.apart.remove hp
  have hd : ∀ x,e.Has x → ¬ Covered (holes s) x := fun x hx hx' => h.disjoint x hx' (hin x hx)
  obtain ⟨l',hl',ht,hcv⟩ := coalesce_disjoint he h.tidy hd
  have hn : holes t = l' := some.inj (hc.symm.trans hl')
  refine ⟨hn ▸ ht,hap,?_,?_⟩
  · intro x
    rw [hn,hcv,hl,← h.whole]
    tauto
  intro x hx
  rw [hn,hcv] at hx
  rw [hl]
  rcases hx with hx | hx
  · exact fun hc => h.disjoint x hx hc.1
  · exact fun hc => hc.2 hx

end

theorem alloc_address (hr : range < 2 ^ 64) (hb : base + range ≤ invalidVaGenAddress) (hn : 0 < n)
    (hi : i + n ≤ range / pageSize) : i ≠ invalidVaPageIndex ∧
      addU64 (i * pageSize % 2 ^ 64) base = base + i * pageSize ∧
      base + i * pageSize ≠ invalidVaGenAddress := by
  simp only [invalidVaPageIndex,invalidVaGenAddress,addU64,pageSize] at *
  omega

section
variable (h : Inv base range s)
include h

theorem Inv.alloc (hb : base + range ≤ invalidVaGenAddress) :
    ∃ r addr',vaGenAlloc mem s.addr n pageSize = some (r,addr') ∧
      Inv base range (allocated s n (r,addr')) ∧
      (0 < n → n ≤ 0xffffffff * pageSize →
        (r = invalidVaGenAddress ↔ ∀ f ∈ holes s,f.range < numPages n)) := by
  have hr : range < 2 ^ 64 := by
    simp only [invalidVaGenAddress] at hb
    omega
  obtain ⟨hs,c,free,hl⟩ := h.lists
  have hnd : holes s = hs.map (extentOf s.addr.allocator) := hl.extents_holes
  obtain ⟨r,addr',hrs,hbs,hc⟩ := alloc_lists hl
  refine ⟨r,addr',hrs,?_⟩
  rw [← hnd] at hc
  rcases hc with ⟨rfl,rfl,hw⟩ | ⟨hle,hps,i,h',free',hl',hk,hr',htk⟩
  · refine ⟨h,fun hn hle => iff_of_true rfl ?_⟩
    rcases hw with hbg | hz | hnn
    · omega
    · rw [numPages_eq hle] at hz
      simp only [pageSize] at hz
      omega
    · exact take_none.mp hnn
  · have ht := htk (h.shared.fits hr hl)
    have hin := take_some hps h.shared.tidy ht
    have hst : i + numPages n ≤ range / pageSize := by
      have hx : Covered (holes s) (i + numPages n - 1) := by
        refine hin.2.2 _ ?_
        simp only [Extent.Has,Extent.stop]
        omega
      have := (h.shared.whole _).mp (.inl hx)
      omega
    obtain ⟨hi,ha,hne⟩ := alloc_address hr hb hps hst
    rw [if_neg hi,h.origin,ha] at hr'
    subst hr'
    have hnw : allocated s n (base + i * pageSize,addr') =
        { s with
          addr := addr',allocs := (base + i * pageSize,n) :: s.allocs } := by simp [allocated,hne]
    have hp : allocPages { s with addr := addr',allocs := (base + i * pageSize,n) :: s.allocs } =
        ⟨i,numPages n⟩ :: allocPages s := by
      simp only [allocPages,hbs,h.origin,List.map_cons,pagesOf,Nat.add_sub_cancel_left]
      rw [Nat.mul_div_cancel i (by decide)]
    rw [hnw]
    refine ⟨⟨⟨_,_,_,hl'⟩,hbs.trans h.origin,h.shared.take hps ht hl'.extents_holes hp,?_,h.claims⟩,?_⟩
    · intro q hq
      rcases List.mem_cons.mp hq with rfl | hq
      · refine ⟨Nat.le_add_right _ _,?_,hps⟩
        rw [Nat.add_sub_cancel_left,Nat.mul_mod_left]
      · exact h.aligned q hq
    · intro _ _
      refine iff_of_false hne ?_
      intro hal
      rw [take_none.mpr hal] at ht
      cases ht

theorem Inv.pages_pos (hm : (address,numBytes) ∈ s.allocs) :
    0 < (pagesOf base (address,numBytes)).range := (h.aligned _ hm).2.2

theorem Inv.free_hole (hr : range < 2 ^ 64) (hl : Lists s.addr hs c free)
    (hm : (address,numBytes) ∈ s.allocs) :
    (Fits s.addr.allocator hs ∧ (pagesOf base (address,numBytes)).stop < 2 ^ 64) ∧
      coalesce (pagesOf base (address,numBytes)) (hs.map (extentOf s.addr.allocator)) ≠ none := by
  have hps := h.pages_pos hm
  have hp : pagesOf base (address,numBytes) ∈ allocPages s := by
    rw [allocPages,h.origin]
    exact List.mem_map_of_mem hm
  have hst := h.shared.alloc_stop hp hps
  refine ⟨⟨h.shared.fits hr hl,?_⟩,?_⟩
  · simp only [pageSize] at hst
    omega
  have hd : ∀ x,(pagesOf base (address,numBytes)).Has x → ¬ Covered (holes s) x :=
    fun x hx hc => h.shared.disjoint x hc ⟨_,hp,hx⟩
  obtain ⟨l',hl',_⟩ := coalesce_disjoint hps h.shared.tidy hd
  have hn : holes s = hs.map (extentOf s.addr.allocator) := hl.extents_holes
  rw [← hn,hl']
  exact some_ne_none _

theorem Inv.free_eq (hm : (address,numBytes) ∈ s.allocs) :
    vaGenFree mem s.addr address numBytes =
      vaGenFreeInternal mem s.addr ((address - base) / pageSize) (numPages numBytes) := by
  have ha := (h.aligned _ hm).1
  rw [← h.origin] at ha
  rw [vaGenFree,if_pos (show address ≥ s.addr.base from ha),h.origin]

section
variable (hr : range < 2 ^ 64) (hm : (address,numBytes) ∈ s.allocs)
include hr hm

theorem Inv.free (hf : vaGenFree mem s.addr address numBytes = some addr') :
    Inv base range { s with addr := addr',allocs := s.allocs.erase (address,numBytes) } := by
  obtain ⟨hs,c,free,hl⟩ := h.lists
  obtain ⟨hft,_⟩ := h.free_hole hr hl hm
  have hsp := freeInternal_lists mem hl ((address - base) / pageSize) (numPages numBytes)
  rw [← h.free_eq hm,hf] at hsp
  obtain ⟨hb,h',free',hl',hk,hco⟩ := hsp
  have hp : (allocPages s).Perm (pagesOf base (address,numBytes) ::
      allocPages { s with addr := addr',allocs := s.allocs.erase (address,numBytes) }) := by
    simp only [allocPages,hb,h.origin]
    exact (List.perm_cons_erase hm).map (pagesOf base)
  have hn : coalesce (pagesOf base (address,numBytes)) (holes s) =
      some (holes { s with addr := addr',allocs := s.allocs.erase (address,numBytes) }) := by
    rw [holes,hl.extents_holes,holes,hl'.extents_holes]
    exact hco hft
  refine ⟨⟨_,_,_,hl'⟩,hb.trans h.origin,h.shared.give (h.pages_pos hm) hp hn,?_,h.claims⟩
  intro q hq
  exact h.aligned q (List.mem_of_mem_erase hq)

theorem Inv.free_returns (hs : Enough mem s.addr.allocator) :
    ∃ addr',vaGenFree mem s.addr address numBytes = some addr' := by
  obtain ⟨hh,c,free,hl⟩ := h.lists
  obtain ⟨hf,hsm⟩ := h.free_hole hr hl hm
  have hsp := freeInternal_lists mem hl ((address - base) / pageSize) (numPages numBytes)
  rw [← h.free_eq hm] at hsp
  generalize vaGenFree mem s.addr address numBytes = r at hsp ⊢
  cases r with
  | none =>
    rcases hsp with hn | hn
    · exact absurd hn hs.alloc
    · exact absurd (hn hf) hsm
  | some addr' => exact ⟨addr',rfl⟩

end

theorem Inv.step (hb : base + range ≤ invalidVaGenAddress)
    (hs : Micscif.VaGen.step s a = some t) : Inv base range t := by
  have hr : range < 2 ^ 64 := by
    simp only [invalidVaGenAddress] at hb
    omega
  obtain ⟨hh,c,free,hl⟩ := h.lists
  cases a with
  | alloc mem n =>
    obtain ⟨⟨r,addr'⟩,hrs,rfl⟩ := map_eq_some_iff.mp hs
    obtain ⟨r',addr'',hr',hi,_⟩ := h.alloc hb
    rw [hrs] at hr'
    cases hr'
    exact hi
  | free mem address numBytes =>
    obtain ⟨hm,hs⟩ := ite_none_right_eq_some.mp hs
    obtain ⟨addr',hrs,rfl⟩ := map_eq_some_iff.mp hs
    exact h.free hr hm hrs
  | claim mem address numBytes =>
    obtain ⟨hc,hs⟩ := ite_none_right_eq_some.mp hs
    obtain ⟨⟨r,addr'⟩,hrs,rfl⟩ := map_eq_some_iff.mp hs
    have hsp := claim_lists mem hl ((Nat.mod_le _ _).trans hc.2.2)
    rw [hrs] at hsp
    obtain ⟨hbs,c',free',hl',hk,hcs⟩ := hsp
    refine h.keep hl hl' hbs rfl ?_ hk
    intro q hq
    simp only [claimed] at hq
    split at hq
    · exact h.claims q hq
    rcases List.mem_cons.mp hq with rfl | hq
    · rcases hcs with ⟨rfl,_⟩ | ⟨rfl,_⟩
      · contradiction
      · have := hc.1
        have := hc.2.2
        have := h.origin
        omega
    · exact h.claims q hq
  | unclaim mem address numBytes =>
    obtain ⟨hm,hs⟩ := ite_none_right_eq_some.mp hs
    obtain ⟨addr',hrs,rfl⟩ := map_eq_some_iff.mp hs
    have hlw : ¬ address ≥ s.addr.base := by
      rw [h.origin]
      exact not_le.mpr (h.claims _ hm)
    have hsp := freeClaim_spec mem (address / pageSize) (numPages numBytes) hl.ownedClaims
    rw [vaGenFree,if_neg hlw] at hrs
    rw [hrs] at hsp
    obtain ⟨hbs,hhl,c',hre,_⟩ := hsp
    obtain ⟨⟨free',hl'⟩,hk⟩ := hl.relistClaims addr' hhl hre
    refine h.keep hl hl' hbs rfl ?_ hk
    intro q hq
    exact h.claims q (List.mem_of_mem_erase hq)

end

theorem inv_init (hi : vaGenInit mem base range = some addr) (hr : pageSize ≤ range) :
    Inv base range ⟨addr,[],[]⟩ := by
  obtain ⟨hb,i,free,hl,he⟩ := init_lists hi
  have hn : holes ⟨addr,[],[]⟩ = [⟨0,range / pageSize⟩] := by
    rw [holes,hl.extents_holes,List.map_singleton,he]
  have hp : allocPages ⟨addr,[],[]⟩ = [] := rfl
  have hps : 0 < range / pageSize := Nat.div_pos hr (by decide)
  refine ⟨⟨_,_,_,hl⟩,hb,⟨?_,?_,?_,?_⟩,by simp,by simp⟩
  · rw [hn]
    exact tidy_cons.mpr ⟨hps,by simp,tidy_nil⟩
  · exact .nil
  · intro x
    simp [hn,hp,Extent.Has,Extent.stop]
  · intro x _
    simp [hp]

theorem Inv.conserved (h : Inv base range s) : Conserved base range s := by
  refine ⟨h.shared,?_,?_⟩
  · intro r hr
    obtain ⟨hle,hal,hp⟩ := h.aligned r hr
    have hm : pagesOf base r ∈ allocPages s := by
      rw [allocPages,h.origin]
      exact List.mem_map_of_mem hr
    have hst := h.shared.alloc_stop hm hp
    refine ⟨hle,hal,?_⟩
    simp only [pagesOf,Extent.stop,pageSize] at *
    omega
  · obtain ⟨hh,c,free,hl⟩ := h.lists
    have hs : free.length ≤ nodeCount s.addr.allocator := by
      have hn := (List.nodup_append.mp (List.nodup_append.mp hl.holes.nodup).2.1).1
      have hsb : free ⊆ List.range (nodeCount s.addr.allocator) := by
        intro i hi
        exact List.mem_range.mpr (hl.holes.bound i (by simp [hi]))
      simpa using List.Nodup.length_le_of_subset hn hsb
    rw [nodesFrom,nodesFrom,nodesFrom,hl.holes.list.walk hl.holes.length_le,
      hl.claims.walk hl.ownedClaims.length_le,hl.holes.spare.walk hs]
    exact (List.Perm.append_left hh List.perm_append_comm).nodup_iff.mp hl.holes.nodup

/-- In every run holes and allocations share out the range; an allocation fails only for want of a
hole. -/
theorem offsets_conserved (as : List Act) (hi : vaGenInit mem base range = some addr)
    (hr : pageSize ≤ range) (hb : base + range ≤ invalidVaGenAddress)
    (he : exec step ⟨addr,[],[]⟩ as = some s) :
    Conserved base range s ∧
      (∀ mem n,0 < n → n ≤ 0xffffffff * pageSize →
        ∃ r addr',vaGenAlloc mem s.addr n pageSize = some (r,addr') ∧
          (r = invalidVaGenAddress ↔ ∀ f ∈ holes s,f.range < numPages n)) ∧
      (∀ mem,∀ r ∈ s.allocs,Enough mem s.addr.allocator →
        ∃ addr',vaGenFree mem s.addr r.1 r.2 = some addr') := by
  have hst : ∀ s a t,Inv base range s → True → step s a = some t → Inv base range t :=
    fun _ _ _ h _ hs => h.step hb hs
  have h : Inv base range s := exec_invariant hst (inv_init hi hr)
    (Along.always (fun _ _ => trivial) _ as) he
  have hsm : range < 2 ^ 64 := by
    simp only [invalidVaGenAddress] at hb
    omega
  refine ⟨h.conserved,?_,?_⟩
  · intro mem n hn hle
    obtain ⟨r,addr',hrs,_,hif⟩ := h.alloc hb
    exact ⟨r,addr',hrs,hif hn hle⟩
  · intro mem r hm hs
    exact h.free_returns hsm hm hs

theorem offsets_conserved_once : ∃ addr s,
    vaGenInit 4096 0x4000000000000000 0x3f00000000000000 = some addr ∧
    exec step ⟨addr,[],[]⟩ [.alloc 4096 8192,.alloc 4096 100,.free 4096 0x4000000000000000 8192] =
      some s ∧ Conserved 0x4000000000000000 0x3f00000000000000 s := by
  have hi : vaGenInit 4096 0x4000000000000000 0x3f00000000000000 = some _ := rfl
  exact ⟨_,_,hi,rfl,(offsets_conserved
    [.alloc 4096 8192,.alloc 4096 100,.free 4096 0x4000000000000000 8192] hi (by decide)
    (by decide) rfl).1⟩

/-- The first request is refused although a hole is large enough. -/
def RefusedWithHole (mem : Memory) (base range n : Nat) : Prop :=
  ∃ addr,vaGenInit mem base range = some addr ∧ (∃ f ∈ holes ⟨addr,[],[]⟩,numPages n ≤ f.range) ∧
    ∃ addr',vaGenAlloc mem addr n pageSize = some (invalidVaGenAddress,addr')

/-- Requests for 2^32 pages and for none, one whose address is that of a failure, and a hole without
pages. -/
theorem large_request_refused :
    RefusedWithHole 4096 0x4000000000000000 0x3f00000000000000 (2 ^ 44) ∧
    RefusedWithHole 4096 0x4000000000000000 0x3f00000000000000 0 ∧
    RefusedWithHole 4096 invalidVaGenAddress 4096 1 ∧
    ∃ addr,vaGenInit 4096 0 4095 = some addr ∧ ¬ Conserved 0 4095 ⟨addr,[],[]⟩ := by
  have hm : ∀ f : Extent,f ∈ [f] := fun f => List.mem_singleton_self f
  refine ⟨⟨_,rfl,⟨_,hm ⟨0,0x3f00000000000⟩,by decide⟩,_,rfl⟩,
    ⟨_,rfl,⟨_,hm ⟨0,0x3f00000000000⟩,by decide⟩,_,rfl⟩,
    ⟨_,rfl,⟨_,hm ⟨0,1⟩,by decide⟩,_,rfl⟩,_,rfl,fun h => ?_⟩
  exact absurd (h.shared.tidy.1 _ (hm ⟨0,0⟩)) (by decide)

end Mpss.Proofs.OffsetsConserved
