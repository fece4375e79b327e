import Mpss.Proofs.VaSearch

namespace Mpss.Proofs.SpaceLists
open Library.Chains Library.Extents Micscif.VaGen Option
open VaLists VaInsert VaSearch

/-- The three lists of the generator: holes, claims and spare nodes. -/
structure Lists (addr : VaGenAddr) (h c free : List Nat) : Prop where
  holes : Owned addr.allocator addr.holeList h free c
  claims : Path (nextOf addr.allocator) invalidVaNodeIndex addr.claimsList c

theorem perm_lists (h c free : List Nat) : (h ++ (free ++ c)).Perm (c ++ (free ++ h)) := by
  have h1 : (h ++ (free ++ c)).Perm ((free ++ c) ++ h) := List.perm_append_comm
  have h2 : ((free ++ c) ++ h).Perm (c ++ (free ++ h)) := by
    rw [← List.append_assoc]
    exact List.Perm.append_right h List.perm_append_comm
  exact h1.trans h2

theorem Lists.ofClaims (ho : Owned addr.allocator addr.claimsList c free h)
    (hp : Path (nextOf addr.allocator) invalidVaNodeIndex addr.holeList h) : Lists addr h c free := by
  refine ⟨⟨hp,ho.spare,(perm_lists c h free).nodup_iff.mp ho.nodup,?_,ho.small⟩,ho.list⟩
  intro i hi
  exact ho.bound i ((perm_lists c h free).mem_iff.mpr hi)

/-- Memory for a slab and for a larger directory. -/
def Enough (mem : Memory) (node : VaNodeAllocator) : Prop :=
  24 * nodesInSlab ≤ mem ∧ 8 * (2 * node.numSlabs + 1) ≤ mem

theorem Enough.alloc (h : Enough mem node) : vaNodeAlloc mem node ≠ none := by
  have hs : ∀ node,addSlab mem node ≠ none := by
    intro node
    rw [addSlab,kzalloc,if_pos (decide_eq_true h.1)]
    exact some_ne_none _
  have hg : vaNodeGrow mem node ≠ none := by
    simp only [vaNodeGrow]
    split
    · have hk := (Nat.mul_le_mul_left 8 (Nat.mod_le _ (2 ^ 32))).trans h.2
      rw [vaNodeRealloc,kzalloc,if_pos (decide_eq_true hk)]
      exact hs _
    · exact hs node
  simp only [vaNodeAlloc]
  split
  · exact some_ne_none _
  · rw [Ne,map_eq_none_iff]
    exact hg

theorem init_lists (hi : vaGenInit mem base range = some addr) :
    addr.base = base ∧ ∃ i free,Lists addr [i] [] free ∧
      extentOf addr.allocator i = ⟨0,range / pageSize⟩ := by
  obtain ⟨⟨i,node⟩,ha,rfl⟩ := map_eq_some_iff.mp hi
  have he : Owned vaNodeInit invalidVaNodeIndex [] [] [] := by
    refine ⟨.nil,.nil,by simp,by simp,?_⟩
    change 0 + 0 ≤ 2 ^ 22
    omega
  obtain ⟨free,ho,_⟩ := he.alloc ha
  exact ⟨rfl,i,free,⟨ho.linkFirst rfl,.nil⟩,extent_set_same⟩

theorem numPages_eq (h : n ≤ 0xffffffff * pageSize) : numPages n = (pageSize - 1 + n) / pageSize := by
  have hw : addU64 (pageSize - 1) n = pageSize - 1 + n := by
    refine Nat.mod_eq_of_lt ?_
    simp only [pageSize] at *
    omega
  rw [numPages,hw]

theorem alloc_eq (h : n ≤ 0xffffffff * pageSize) :
    vaGenAlloc mem addr n pageSize = (vaGenAllocInternal addr (numPages n)).map fun r =>
      (if r.1 = invalidVaPageIndex then invalidVaGenAddress
        else addU64 (r.1 * pageSize % 2 ^ 64) addr.base,r.2) := by
  have hs : numPages n < 2 ^ 32 := by
    rw [numPages_eq h]
    simp only [pageSize] at *
    omega
  have hr : subU64 (addU64 (numPages n) 1) 1 = numPages n := by
    simp only [subU64,addU64]
    omega
  have ho : pageSize / pageSize % 0xffffffff = 1 := by decide
  simp only [vaGenAlloc,vaGenAllocAligned,ho,hr]
  rw [if_neg (lt_irrefl _),if_neg (not_lt.mpr h)]
  by_cases hz : numPages n = 0
  · have hi : vaGenAllocInternal addr 0 = some (invalidVaPageIndex,addr) := by
      rw [vaGenAllocInternal,if_pos (.inl rfl)]
    rw [hz,hi]
    rfl
  cases vaGenAllocInternal addr (numPages n) with
  | none => rfl
  | some r =>
    simp only [bind_some,map_some,hz,one_ne_zero,or_false,if_false,true_or,if_true,map_some]
    split <;> rfl

section
variable (hl : Lists addr h c free)
include hl

theorem Lists.ownedClaims : Owned addr.allocator addr.claimsList c free h := by
  refine ⟨hl.claims,hl.holes.spare,(perm_lists h c free).nodup_iff.mp hl.holes.nodup,?_,hl.holes.small⟩
  intro i hi
  exact hl.holes.bound i ((perm_lists h c free).mem_iff.mpr hi)

theorem Lists.relistHoles (addr' : VaGenAddr) (hc : addr'.claimsList = addr.claimsList)
    (hr : Relisted addr.allocator addr'.allocator addr'.holeList h' c) :
    (∃ free',Lists addr' h' c free') ∧
      c.map (extentOf addr'.allocator) = c.map (extentOf addr.allocator) := by
  obtain ⟨free',ho,hk⟩ := hr
  exact ⟨⟨free',ho,hc ▸ Path.kept hl.claims hk⟩,hk.map_extent⟩

theorem Lists.relistClaims (addr' : VaGenAddr) (hh : addr'.holeList = addr.holeList)
    (hr : Relisted addr.allocator addr'.allocator addr'.claimsList c' h) :
    (∃ free',Lists addr' h c' free') ∧
      h.map (extentOf addr'.allocator) = h.map (extentOf addr.allocator) := by
  obtain ⟨free',ho,hk⟩ := hr
  exact ⟨⟨free',.ofClaims ho (hh ▸ Path.kept hl.holes.list hk)⟩,hk.map_extent⟩

theorem Lists.extents_holes :
    extents addr.allocator addr.holeList = h.map (extentOf addr.allocator) := by
  rw [extents,nodesFrom,hl.holes.list.walk hl.holes.length_le]

theorem Lists.extents_claims :
    extents addr.allocator addr.claimsList = c.map (extentOf addr.allocator) := by
  rw [extents,nodesFrom,hl.claims.walk hl.ownedClaims.length_le]

theorem alloc_lists :
    ∃ r addr',vaGenAlloc mem addr n pageSize = some (r,addr') ∧ addr'.base = addr.base ∧
      (r = invalidVaGenAddress ∧ addr' = addr ∧ (0xffffffff * pageSize < n ∨ numPages n = 0 ∨
          take (numPages n) (h.map (extentOf addr.allocator)) = none) ∨
        n ≤ 0xffffffff * pageSize ∧ 0 < numPages n ∧ ∃ i h' free',Lists addr' h' c free' ∧
          c.map (extentOf addr'.allocator) = c.map (extentOf addr.allocator) ∧
          r = (if i = invalidVaPageIndex then invalidVaGenAddress
            else addU64 (i * pageSize % 2 ^ 64) addr.base) ∧
          (Fits addr.allocator h → take (numPages n) (h.map (extentOf addr.allocator)) =
            some (i,h'.map (extentOf addr'.allocator)))) := by
  by_cases hn : n ≤ 0xffffffff * pageSize
  · obtain ⟨i,addr',hi,hb,hc,hcs⟩ := allocInternal_spec hl.holes
    rw [alloc_eq hn,hi]
    refine ⟨_,_,rfl,hb,?_⟩
    rcases hcs with ⟨rfl,rfl,hnn⟩ | ⟨hp,h',hr,ht⟩
    · exact .inl ⟨if_pos rfl,rfl,.inr hnn⟩
    · obtain ⟨⟨free',hl'⟩,hk⟩ := hl.relistHoles addr' hc hr
      exact .inr ⟨hn,hp,i,h',free',hl',hk,rfl,ht⟩
  · refine ⟨invalidVaGenAddress,addr,?_,rfl,.inl ⟨rfl,rfl,.inl (Nat.lt_of_not_le hn)⟩⟩
    rw [vaGenAlloc,if_neg (lt_irrefl _),if_pos (Nat.lt_of_not_le hn)]

end

/-- Freeing an allocation, against the holes. -/
def FreedHole (mem : Memory) (addr : VaGenAddr) (e : Extent) (h c : List Nat) : Option VaGenAddr → Prop
  | none => vaNodeAlloc mem addr.allocator = none ∨
      (Fits addr.allocator h ∧ e.stop < 2 ^ 64 → coalesce e (h.map (extentOf addr.allocator)) = none)
  | some addr' => addr'.base = addr.base ∧
      ∃ h' free',Lists addr' h' c free' ∧
        c.map (extentOf addr'.allocator) = c.map (extentOf addr.allocator) ∧
        (Fits addr.allocator h ∧ e.stop < 2 ^ 64 →
          coalesce e (h.map (extentOf addr.allocator)) = some (h'.map (extentOf addr'.allocator)))

theorem freeInternal_lists (mem : Memory) (hl : Lists addr h c free) (base range : Nat) :
    FreedHole mem addr ⟨base,range⟩ h c (vaGenFreeInternal mem addr base range) := by
  have hi := insert_spec mem hl.holes base range
  simp only [vaGenFreeInternal]
  generalize vaGenInsertAndCoalesce mem addr.allocator addr.holeList base range = r at hi ⊢
  cases r with
  | bug => exact .inl hi
  | failed => exact .inr hi
  | done node list =>
    obtain ⟨h',hr,hc⟩ := hi
    obtain ⟨⟨free',hl'⟩,hk⟩ := hl.relistHoles { addr with allocator := node,holeList := list } rfl hr
    exact ⟨rfl,h',free',hl',hk,hc⟩

def ClaimedBy (mem : Memory) (addr : VaGenAddr) (address : Nat) (e : Extent) (h c : List Nat) :
    Option (Nat × VaGenAddr) → Prop
  | none => vaNodeAlloc mem addr.allocator = none
  | some (r,addr') => addr'.base = addr.base ∧
      ∃ c' free',Lists addr' h c' free' ∧
        h.map (extentOf addr'.allocator) = h.map (extentOf addr.allocator) ∧
        (r = invalidVaGenAddress ∧ addr' = addr ∧ c' = c ∧
            (address % pageSize = 0 → Fits addr.allocator c ∧ e.stop < 2 ^ 64 →
              coalesce e (c.map (extentOf addr.allocator)) = none) ∨
          r = address ∧ address % pageSize = 0 ∧ (Fits addr.allocator c ∧ e.stop < 2 ^ 64 →
            coalesce e (c.map (extentOf addr.allocator)) = some (c'.map (extentOf addr'.allocator))))

theorem claim_lists (mem : Memory) (hl : Lists addr h c free)
    (hb : addU64 address numBytes ≤ addr.base) :
    ClaimedBy mem addr address ⟨address / pageSize,numPages numBytes⟩ h c
      (vaGenClaim mem addr address numBytes) := by
  have hi := insert_spec mem hl.ownedClaims (address / pageSize) (numPages numBytes)
  simp only [vaGenClaim]
  rw [if_neg (not_lt.mpr hb)]
  by_cases ha : address % pageSize ≠ 0
  · rw [if_pos ha]
    exact ⟨rfl,c,free,hl,rfl,.inl ⟨rfl,rfl,rfl,fun h0 => absurd h0 ha⟩⟩
  rw [if_neg ha]
  generalize vaGenInsertAndCoalesce mem addr.allocator addr.claimsList (address / pageSize)
    (numPages numBytes) = r at hi ⊢
  cases r with
  | bug => exact hi
  | failed => exact ⟨rfl,c,free,hl,rfl,.inl ⟨rfl,rfl,rfl,fun _ => hi⟩⟩
  | done node list =>
    obtain ⟨c',hr,hc⟩ := hi
    obtain ⟨⟨free',hl'⟩,hk⟩ := hl.relistClaims { addr with
      allocator := node,claimsList := list } rfl hr
    exact ⟨rfl,c',free',hl',hk,.inr ⟨rfl,not_not.mp ha,hc⟩⟩

end Mpss.Proofs.SpaceLists
