import Mpss.Proofs.SpaceLists

namespace Mpss.Proofs.ClaimsDisjoint
open Library.Extents Library.Runs Option
open Micscif.VaGen
open VaInsert VaSearch SpaceLists

/-- The claims list is sorted with gaps and stands for the claimed pages. -/
structure Claimed (s : State) : Prop where
  tidy : Tidy (claimNodes s)
  covered : ∀ x,Covered (claimNodes s) x ↔ Covered (claimPages s) x

/-- A claim of aligned pages that overlaps nothing when it begins where a node ends; a freed claim
that splits no node behind page 0. -/
def Allowed (s : State) : Act → Prop
  | .alloc _ _ => True
  | .free _ address _ => s.addr.base ≤ address
  | .claim _ address numBytes => address % pageSize = 0 ∧ address ≠ invalidVaGenAddress ∧
      ((∃ f ∈ claimNodes s,f.stop = address / pageSize) →
        ∀ x,(pagesOf 0 (address,numBytes)).Has x → ¬ Covered (claimNodes s) x)
  | .unclaim _ address numBytes => ∀ f ∈ claimNodes s,SplitOk f (pagesOf 0 (address,numBytes))

structure Inv (base : Nat) (s : State) : Prop where
  lists : ∃ h c free,Lists s.addr h c free
  origin : s.addr.base = base
  held : Claimed s
  apart : Apart (claimPages s)
  whole : ∀ r ∈ s.claims,Claimable s.addr r.1 r.2

theorem numPages_whole (hn : n % pageSize = 0) (hlt : n < 2 ^ 64) : numPages n = n / pageSize := by
  simp only [numPages,addU64,pageSize] at *
  omega

theorem claim_stop (hc : Claimable addr address numBytes) (hb : addr.base < 2 ^ 64) :
    0 < (pagesOf 0 (address,numBytes)).range ∧
      (pagesOf 0 (address,numBytes)).stop ≤ addr.base / pageSize := by
  obtain ⟨hp,hm,hle⟩ := hc
  simp only [pagesOf,Extent.stop,numPages_whole hm (by omega),pageSize] at *
  omega

theorem Inv.keep {t : State} (h : Inv base s) (hl : Lists s.addr hs c free)
    (hl' : Lists t.addr hs' c free') (hb : t.addr.base = s.addr.base) (hc : t.claims = s.claims)
    (hk : c.map (extentOf t.addr.allocator) = c.map (extentOf s.addr.allocator)) : Inv base t := by
  have hn : claimNodes t = claimNodes s := by
    rw [claimNodes,hl'.extents_claims,hk,claimNodes,hl.extents_claims]
  have hp : claimPages t = claimPages s := by rw [claimPages,hc,claimPages]
  refine ⟨⟨_,_,_,hl'⟩,hb.trans h.origin,⟨hn ▸ h.held.tidy,?_⟩,hp ▸ h.apart,?_⟩
  · intro x
    rw [hn,hp]
    exact h.held.covered x
  · intro r hr
    have hw := h.whole r (hc ▸ hr)
    simp only [Claimable,hb] at hw ⊢
    exact hw

theorem claimPages_cons (r : Nat × Nat) :
    claimPages { s with addr := addr,claims := r :: s.claims } = pagesOf 0 r :: claimPages s := rfl

theorem pagesOf_zero : pagesOf 0 (address,numBytes) = ⟨address / pageSize,numPages numBytes⟩ := rfl

section
variable (h : Inv base s) (hb : base < 2 ^ 64)
include h hb

theorem Inv.fits (hl : Lists s.addr hs c free) : Fits s.addr.allocator c := by
  intro i hi
  have hn : claimNodes s = c.map (extentOf s.addr.allocator) := hl.extents_claims
  have hm : extentOf s.addr.allocator i ∈ claimNodes s := by
    rw [hn]
    exact List.mem_map_of_mem hi
  have hbn : ∀ x,Covered (claimNodes s) x → x < 2 ^ 63 := by
    intro x hx
    obtain ⟨e,he,hex⟩ := (h.held.covered x).mp hx
    obtain ⟨r,hr,rfl⟩ := List.mem_map.mp he
    have hst : (pagesOf 0 r).stop ≤ s.addr.base / pageSize :=
      (claim_stop (h.whole r hr) (h.origin ▸ hb)).2
    have hbs := h.origin
    have := hex.2
    simp only [pageSize] at *
    omega
  have := h.held.tidy.stop_le hm hbn
  omega

theorem Inv.claim (hok : Allowed s (.claim mem address numBytes))
    (hc : Claimable s.addr address numBytes)
    (hr : vaGenClaim mem s.addr address numBytes = some (r,addr')) :
    (r ≠ invalidVaGenAddress ↔ ∀ x,(pagesOf 0 (address,numBytes)).Has x →
      ¬ Covered (claimPages s) x) ∧ Inv base (claimed s numBytes (r,addr')) := by
  obtain ⟨ha,hne,ho⟩ := hok
  obtain ⟨hs,c,free,hl⟩ := h.lists
  obtain ⟨hp,hst⟩ := claim_stop hc (h.origin ▸ hb)
  have hsu : addU64 address numBytes ≤ s.addr.base := (Nat.mod_le _ _).trans hc.2.2
  have hsp := claim_lists mem hl hsu
  rw [hr] at hsp
  obtain ⟨hbs,c',free',hl',hk,hcs⟩ := hsp
  have hn : claimNodes s = c.map (extentOf s.addr.allocator) := hl.extents_claims
  rw [← pagesOf_zero,← hn] at hcs
  have hf : Fits s.addr.allocator c ∧ (pagesOf 0 (address,numBytes)).stop < 2 ^ 64 := by
    refine ⟨h.fits hb hl,?_⟩
    have hbs := h.origin
    simp only [pageSize] at *
    omega
  have hi := coalesce_iff hp h.held.tidy ho
  simp only [h.held.covered] at hi
  rcases hcs with ⟨hin,rfl,rfl,hnn⟩ | ⟨rfl,_,hsm⟩
  · subst hin
    have hcl : claimed s numBytes (invalidVaGenAddress,s.addr) = s := by simp [claimed]
    rw [hcl,← hi,hnn ha hf]
    exact ⟨by simp,h⟩
  have hcl : claimed s numBytes (r,addr') =
      { s with addr := addr',claims := (r,numBytes) :: s.claims } := by simp [claimed,hne]
  have hco := hsm hf
  have hd := hi.mp ⟨_,hco⟩
  rw [hcl]
  refine ⟨iff_of_true hne hd,?_⟩
  obtain ⟨l',hl'',ht,hcv⟩ := coalesce_disjoint hp h.held.tidy
    (fun x hx => (h.held.covered x).not.mpr (hd x hx))
  have hnw : claimNodes { s with addr := addr',claims := (r,numBytes) :: s.claims } = l' := by
    rw [claimNodes,hl'.extents_claims]
    exact some.inj (hco.symm.trans hl'')
  refine ⟨⟨_,_,_,hl'⟩,hbs.trans h.origin,⟨hnw ▸ ht,?_⟩,?_,?_⟩
  · intro x
    rw [hnw,hcv,claimPages_cons,covered_cons,h.held.covered]
    exact or_comm
  · exact apart_cons.mpr ⟨hd,h.apart⟩
  · intro q hq
    simp only [Claimable,hbs]
    rcases List.mem_cons.mp hq with rfl | hq
    · exact hc
    · exact h.whole q hq

theorem Inv.unclaim (hok : Allowed s (.unclaim mem address numBytes))
    (hm : (address,numBytes) ∈ s.claims)
    (hr : vaGenFree mem s.addr address numBytes = some addr') :
    Inv base { s with addr := addr',claims := s.claims.erase (address,numBytes) } := by
  have hc := h.whole _ hm
  obtain ⟨hs,c,free,hl⟩ := h.lists
  obtain ⟨hps,hst⟩ := claim_stop hc (h.origin ▸ hb)
  have hlw : ¬ address ≥ s.addr.base := by
    have := hc.1
    have := hc.2.2
    omega
  have hsp := freeClaim_spec mem (address / pageSize) (numPages numBytes) hl.ownedClaims
  rw [vaGenFree,if_neg hlw] at hr
  rw [hr] at hsp
  obtain ⟨hbs,hh,c',hre,hct⟩ := hsp
  obtain ⟨⟨free',hl'⟩,_⟩ := hl.relistClaims addr' hh hre
  have hn : claimNodes s = c.map (extentOf s.addr.allocator) := hl.extents_claims
  rw [← pagesOf_zero,← hn] at hct
  have hp : (claimPages s).Perm (pagesOf 0 (address,numBytes) ::
      (s.claims.erase (address,numBytes)).map (pagesOf 0)) :=
    (List.perm_cons_erase hm).map (pagesOf 0)
  obtain ⟨ha,hin,hlf⟩ := h.apart.remove hp
  have hsm : (pagesOf 0 (address,numBytes)).stop < 2 ^ 64 := by
    have hbs := h.origin
    simp only [pageSize] at *
    omega
  obtain ⟨ht,hcv⟩ := hct (h.fits hb hl) hsm hps h.held.tidy (fun x hx => (h.held.covered x).mpr
    (hin x hx)) hok
  have hnw : claimNodes { s with addr := addr',claims := s.claims.erase (address,numBytes) } =
      c'.map (extentOf addr'.allocator) := hl'.extents_claims
  refine ⟨⟨_,_,_,hl'⟩,hbs.trans h.origin,⟨hnw ▸ ht,?_⟩,ha,?_⟩
  · intro x
    rw [hnw,hcv,h.held.covered]
    exact (hlf x).symm
  · intro q hq
    simp only [Claimable,hbs]
    exact h.whole q (List.mem_of_mem_erase hq)

theorem Inv.step (hok : Allowed s a) (hs : Micscif.VaGen.step s a = some t) : Inv base t := by
  obtain ⟨hh,c,free,hl⟩ := h.lists
  cases a with
  | alloc mem n =>
    obtain ⟨⟨r,addr'⟩,hr,rfl⟩ := map_eq_some_iff.mp hs
    obtain ⟨r',addr'',hr',hbs,hcs⟩ := alloc_lists hl
    rw [hr] at hr'
    cases hr'
    rcases hcs with ⟨_,rfl,_⟩ | ⟨_,_,i,h',free',hl',hk,_⟩
    · exact h.keep hl hl rfl rfl rfl
    · exact h.keep hl hl' hbs rfl hk
  | free mem address numBytes =>
    obtain ⟨_,hs⟩ := ite_none_right_eq_some.mp hs
    obtain ⟨addr',hr,rfl⟩ := map_eq_some_iff.mp hs
    rw [vaGenFree,if_pos (show address ≥ s.addr.base from hok)] at hr
    have hsp := freeInternal_lists mem hl ((address - s.addr.base) / pageSize) (numPages numBytes)
    rw [hr] at hsp
    obtain ⟨hbs,h',free',hl',hk,_⟩ := hsp
    exact h.keep hl hl' hbs rfl hk
  | claim mem address numBytes =>
    obtain ⟨hc,hs⟩ := ite_none_right_eq_some.mp hs
    obtain ⟨⟨r,addr'⟩,hr,rfl⟩ := map_eq_some_iff.mp hs
    exact (h.claim hb hok hc hr).2
  | unclaim mem address numBytes =>
    obtain ⟨hm,hs⟩ := ite_none_right_eq_some.mp hs
    obtain ⟨addr',hr,rfl⟩ := map_eq_some_iff.mp hs
    exact h.unclaim hb hok hm hr

end

theorem inv_init (hi : vaGenInit mem base range = some addr) : Inv base ⟨addr,[],[]⟩ := by
  obtain ⟨hb,i,free,hl,_⟩ := init_lists hi
  have hn : claimNodes ⟨addr,[],[]⟩ = [] := hl.extents_claims
  refine ⟨⟨_,_,_,hl⟩,hb,⟨hn ▸ tidy_nil,?_⟩,.nil,by simp⟩
  intro x
  rw [hn]
  rfl

theorem claim_returns (hl : Lists addr h c free) (hb : address + numBytes ≤ addr.base)
    (hs : Enough mem addr.allocator) : ∃ r,vaGenClaim mem addr address numBytes = some r := by
  have hsp := claim_lists mem hl ((Nat.mod_le _ _).trans hb)
  generalize vaGenClaim mem addr address numBytes = r at hsp ⊢
  cases r with
  | none => exact absurd hsp hs.alloc
  | some r => exact ⟨r,rfl⟩

/-- In allowed runs the claims list stands for the claimed pages, and a claim succeeds just when its
pages are free. -/
theorem claims_stay_disjoint (as : List Act) (hi : vaGenInit mem base range = some addr)
    (hb : base < 2 ^ 64)
    (ha : Along step Allowed ⟨addr,[],[]⟩ as) (he : exec step ⟨addr,[],[]⟩ as = some s) :
    Claimed s ∧ ∀ address numBytes,Claimable s.addr address numBytes →
      (∀ mem r addr',Allowed s (.claim mem address numBytes) →
        vaGenClaim mem s.addr address numBytes = some (r,addr') →
        (r ≠ invalidVaGenAddress ↔
          ∀ x,(pagesOf 0 (address,numBytes)).Has x → ¬ Covered (claimPages s) x)) ∧
      (∀ mem,Enough mem s.addr.allocator → ∃ r,vaGenClaim mem s.addr address numBytes = some r) := by
  have h : Inv base s := exec_invariant (fun _ _ _ h hok hs => h.step hb hok hs) (inv_init hi) ha he
  refine ⟨h.held,fun address numBytes hc => ⟨?_,?_⟩⟩
  · intro mem r addr' hok hr
    exact (h.claim hb hok hc hr).1
  · intro mem hs
    obtain ⟨_,_,_,hl⟩ := h.lists
    exact claim_returns hl hc.2.2 hs

/-- The second claim is joined to the first, and freed again while a third one is held. -/
def joinedClaims : List Act :=
  [.claim 4096 4096 4096,.claim 4096 8192 4096,.claim 4096 16384 8192,.unclaim 4096 8192 4096]

theorem joined_claims_disjoint :
    ∃ addr s,vaGenInit 4096 0x4000000000000000 0x3f00000000000000 = some addr ∧
      exec step ⟨addr,[],[]⟩ joinedClaims = some s ∧ claimNodes s = [⟨1,1⟩,⟨4,2⟩] ∧ Claimed s := by
  have hi : vaGenInit 4096 0x4000000000000000 0x3f00000000000000 = some _ := rfl
  refine ⟨_,_,hi,rfl,by decide,(claims_stay_disjoint joinedClaims hi (by decide) ?_ rfl).1⟩
  refine .cons ⟨by decide,by decide,?_⟩ rfl (.cons ⟨by decide,by decide,?_⟩ rfl
    (.cons ⟨by decide,by decide,?_⟩ rfl (.cons ?_ rfl trivial)))
  · rintro ⟨f,hf,_⟩
    cases hf
  · rintro _ x hx ⟨f,hf,hfx⟩
    cases List.mem_singleton.mp hf
    exact absurd hfx.2 (Nat.not_lt.mpr hx.1)
  · rintro ⟨f,hf,hs⟩
    cases List.mem_singleton.mp hf
    exact absurd hs (by decide)
  · unfold Allowed SplitOk
    decide

/-- A claim that begins where a node ends is merged over the next one; freeing the middle of three
claims loses the pages behind it. -/
theorem claims_overlap : ∃ addr,vaGenInit 4096 0x4000000000000000 0x3f00000000000000 = some addr ∧
    (∃ s r addr',exec step ⟨addr,[],[]⟩ [.claim 4096 0 8192,.claim 4096 12288 4096] = some s ∧
      Claimable s.addr 8192 12288 ∧ vaGenClaim 4096 s.addr 8192 12288 = some (r,addr') ∧
      ¬ (r ≠ invalidVaGenAddress ↔
        ∀ x,(pagesOf 0 (8192,12288)).Has x → ¬ Covered (claimPages s) x)) ∧
    (∃ s,exec step ⟨addr,[],[]⟩ [.claim 4096 4096 4096,.claim 4096 8192 4096,.claim 4096 12288 4096,
        .unclaim 4096 8192 4096] = some s ∧ ¬ Claimed s) := by
  refine ⟨_,rfl,⟨_,_,_,rfl,by decide,rfl,?_⟩,⟨_,rfl,?_⟩⟩
  · intro h
    have hf := h.mp (by decide) 3 ⟨by decide,by decide⟩
    exact hf ⟨⟨3,1⟩,List.mem_cons_self,by decide,by decide⟩
  · intro h
    have hp := h.tidy.1 ⟨3,0⟩ (show _ ∈ [(⟨1,1⟩ : Extent),⟨3,0⟩] by simp)
    exact absurd hp (by decide)

end Mpss.Proofs.ClaimsDisjoint
