import Mpss.Micscif.RmaDma
import Mpss.Proofs.CopyExact

namespace Mpss.Proofs.RmaPlaces
open Library.Outcomes Scif.Transfer WindowRun CopyLoops Micscif.RmaDma
open Scif.Copy (pageSize WindowType Chunk Window Ptr virt Iter DmaAddr Cursor CopyWork Buffer
  scifInitWindowIter scifOffToDmaAddr findChunk bufferMoves headLen cacheAlign)

structure Reliable (env : Env) : Prop where
  ioremap : ∀ a len,env.ioremapNocache a len ≠ none
  single : ∀ a,env.mapSingle a ≠ none
  compCb : env.kzalloc = true
  buffer : ∀ len,tempBuffer env len ≠ none
  dma : ∀ d,env.doDma d = none
  poll : env.drainDmaPoll = none
  intr : env.drainDmaIntr = none
  channel : env.requestDmaChannel = none

/-- How a copy may fail: with an error when some call fails, and in `BUG_ON` when `bug` says so. -/
def Fails (env : Env) (bug : Prop) : Fault → Prop
  | .errno _ => ¬ Reliable env
  | .bug => bug

theorem or_bug_ends (hx : x = some a) (h : post a) : Ends (orBug x) fails post := by
  subst hx
  exact h

theorem attempt_ends (hr : Reliable env → err = none) (h : post a) :
    Ends (attempt err a) (Fails env bug) post := by
  cases err with
  | none => exact h
  | some e =>
    intro hrl
    cases hr hrl

theorem or_enomem_ends (hr : Reliable env → x ≠ none)
    (h : ∀ a,x = some a → post a) : Ends (orEnomem x) (Fails env bug) post := by
  cases x with
  | some a => exact h a rfl
  | none => exact fun hrl => hr hrl rfl

def Address (w : Window) (a : Nat) : Prop := ∃ c ∈ w.chunks,c.dmaAddr ≤ a ∧
    a < c.dmaAddr + c.numPages * pageSize

theorem Backed.aligned (h : Backed bus cs pages) :
    ∀ c ∈ cs,0 < c.numPages ∧ c.dmaAddr % pageSize = 0 := by
  induction cs generalizing pages with
  | nil =>
    intro c hc
    cases hc
  | cons d cs ih =>
    obtain ⟨hp,hda,_,_,hr⟩ := h
    exact List.forall_mem_cons.mpr ⟨⟨hp,hda⟩,ih hr⟩

theorem find_chunk_place (hc : ∀ c ∈ cs,c.dmaAddr % pageSize = 0) (hi : iter.offset % pageSize = 0)
    (hd : findChunk off cs iter = some d) :
    (∃ c ∈ cs,c.dmaAddr ≤ d.addr ∧ d.addr < c.dmaAddr + c.numPages * pageSize) ∧
      d.addr % pageSize = off % pageSize := by
  induction cs generalizing iter with
  | nil => cases hd
  | cons c cs ih =>
    have hda := hc c List.mem_cons_self
    unfold findChunk at hd
    simp only at hd
    split at hd
    · cases hd
      refine ⟨⟨c,List.mem_cons_self,Nat.le_add_right _ _,?_⟩,?_⟩
      · dsimp only
        omega
      · dsimp only
        unfold pageSize at *
        omega
    · obtain ⟨⟨e,he,hle⟩,hm⟩ := ih (List.forall_mem_cons.mp hc).2
        (by
          rw [Nat.add_mul_mod_self_right]
          exact hi) hd
      exact ⟨⟨e,.tail c he,hle⟩,hm⟩

/-- What is found for the place of a cursor, with its DMA address. -/
structure Located (bus : Nat → Nat) (c : Cursor) (d : DmaAddr) : Prop where
  found : Found bus c.window c.offset d
  address : Address c.window d.addr
  place : d.addr % pageSize = c.offset % pageSize

theorem Located.dvd_addr (h : Located bus c d) (ho : l1CacheBytes ∣ c.offset) :
    l1CacheBytes ∣ d.addr := by
  have hp := h.place
  unfold l1CacheBytes pageSize at *
  omega

section
variable (h : At bus c) (hlt : c.offset < c.window.endOffset)
include h hlt

theorem At.located (hv : Valid bus c.window c.offset iter) :
    ∃ d,scifOffToDmaAddr c.window c.offset iter = some d ∧ Located bus c d := by
  obtain ⟨d,hd,hf⟩ := h.sound.off_to_dma hv h.lower hlt
  have hal := Backed.aligned h.sound.backed
  have hm : c.offset % pageSize < pageSize := Nat.mod_lt _ (by decide)
  have hpl : Address c.window d.addr ∧ d.addr % pageSize = c.offset % pageSize := by
    unfold scifOffToDmaAddr at hd
    split at hd
    · split at hd
      · rename_i ch hch
        cases hd
        obtain ⟨hps,hda⟩ := hal ch (List.mem_of_getElem? hch)
        dsimp only
        rw [or_page_offset hda hm]
        refine ⟨⟨ch,List.mem_of_getElem? hch,Nat.le_add_right _ _,?_⟩,?_⟩
        · have : pageSize ≤ ch.numPages * pageSize := Nat.le_mul_of_pos_left _ hps
          omega
        · rw [Nat.add_mod,hda,zero_add,Nat.mod_mod,Nat.mod_mod]
      · cases hd
    · obtain ⟨n,_,hi,_,_⟩ := hv
      have hir : iter.offset % pageSize = 0 := by
        rw [hi,Nat.add_mul_mod_self_right]
        exact h.sound.aligned
      obtain ⟨⟨ch,hch,hle⟩,hp⟩ := find_chunk_place
        (fun ch hch => (hal ch (List.mem_of_mem_drop hch)).2) hir hd
      exact ⟨⟨ch,List.mem_of_mem_drop hch,hle⟩,hp⟩
  exact ⟨d,hd,hf,hpl.1,hpl.2⟩

theorem get_dma_addr (hv : Valid bus c.window c.offset iter) :
    Ends (micscifGetDmaAddr c.window c.offset iter) fails (Located bus c) := by
  obtain ⟨d,hd,hl⟩ := At.located h hlt hv
  exact or_bug_ends hd hl

theorem dma_addr_at : Ends (dmaAddrAt c) fails (Located bus c) :=
    get_dma_addr h hlt (h.sound.valid_init h.lower)

end

/-- DMA knows an own window by local addresses; the peer's is behind the aperture or
`ioremap_nocache` or, on loopback, in the kernel's direct mapping. -/
structure Reachable (env : Env) (loopback : Bool) (w : Window) : Prop where
  own : w.type = .self → env.mic = true ∨ loopback = false → ∀ a,Address w a →
    isLocalDmaAddr env a = true
  away : w.type = .peer → loopback = false → ∀ a,Address w a → isLocalDmaAddr env a = false
  aper : w.type = .peer → loopback = false → env.mic = false →
    ∀ a k,Address w a → a % pageSize + k < pageSize → env.aper (a + k) = env.bus (a + k)
  ioremap : w.type = .peer → loopback = false → env.mic = true →
    ∀ a len p,Address w a → env.ioremapNocache a len = some p → ∀ k < len,p k = env.bus (a + k)
  direct : w.type = .peer → loopback = true →
    ∀ a k,Address w a → a % pageSize + k < pageSize → env.physToVirt a + k = env.bus (a + k)

structure Place (env : Env) (loopback : Bool) (c : Cursor) (m : Nat) : Prop where
  at_ : At env.bus c
  inside : c.offset < c.window.endOffset
  page : InPage c m
  reach : Reachable env loopback c.window

theorem gtt_own (ht : c.window.type = .self) (hm : env.mic = false) (hb : bug) :
    Ends (ioremapRemoteGtt env true c m) (Fails env bug) post := by
  unfold ioremapRemoteGtt ioremapRemote peerVa
  simp only [hm,ht]
  exact hb

section
variable (h : Place env loopback c m)
include h

theorem Place.points (hp : Leads c.window c.offset p) :
    Points c m p := fun _ hk => h.at_.leads h.inside hp h.page hk

theorem Place.points_bus (hl : Located env.bus c d)
    (hp : ∀ k < m,d.addr % pageSize + k < pageSize → p k = env.bus (d.addr + k)) : Points c m p := by
  intro k hk
  have hpg : c.offset % pageSize + m ≤ pageSize := h.page
  rw [hp k hk (by rw [hl.place]; omega)]
  exact h.points hl.found.leads k hk

theorem Place.local_va (hs : c.window.type = .self ∨ loopback = true) :
    Ends (getLocalVa env c.window c.offset) fails (Points c m) := by
  unfold getLocalVa
  cases ht : c.window.type with
  | self =>
    obtain ⟨p,hp,hl⟩ := h.at_.sound.local_va ht h.at_.lower h.inside
    exact or_bug_ends hp (h.points hl)
  | peer =>
    have hlp : loopback = true := hs.resolve_left (by simp [ht])
    refine Ends.bind (dma_addr_at h.at_ h.inside) ?_
    intro d hd
    exact h.points_bus hd (fun k _ hk => h.reach.direct ht hlp d.addr k hd.address hk)

section
variable (ht : c.window.type = .peer)
include ht

theorem Place.peer_va : Ends (peerVa c.window c.offset) fails (Points c m) := by
  have hal := h.at_.sound.aligned
  have hl := h.at_.lower
  have hi : (c.offset - c.window.offset) / pageSize < c.window.pages.length := by
    have hlt := h.inside
    have hln := h.at_.sound.pages
    unfold Window.endOffset pageSize at *
    omega
  unfold peerVa
  rw [if_pos ht]
  refine Ends.bind (or_bug_ends (List.getElem?_eq_getElem hi) rfl) ?_
  rintro page rfl
  refine h.points ?_
  intro k hk
  rw [cell_in_page hl hal hk,List.getD,List.getElem?_eq_getElem hi]
  rfl

theorem Place.ioremap (hv : Valid env.bus c.window c.offset iter) :
    Ends (ioremapRemote env loopback c.window c.offset m iter) (Fails env bug)
      (fun r => Points c m r.1 ∧ Valid env.bus c.window c.offset r.2) := by
  unfold ioremapRemote
  cases hm : env.mic with
  | true =>
    refine Ends.bind (get_dma_addr h.at_ h.inside hv) ?_
    intro d hd
    cases loopback with
    | true =>
      exact ⟨h.points_bus hd (fun k _ hk => h.reach.direct ht rfl d.addr k hd.address hk),
        hd.found.valid⟩
    | false =>
      cases hio : env.ioremapNocache d.addr m with
      | some p =>
        exact ⟨h.points_bus hd (fun k hk _ => h.reach.ioremap ht rfl hm d.addr m p hd.address hio k
          hk),hd.found.valid⟩
      | none => exact fun hr => hr.ioremap d.addr m hio
  | false =>
    cases loopback with
    | true =>
      refine Ends.bind (h.peer_va ht) ?_
      exact fun p hp => ⟨hp,hv⟩
    | false =>
      refine Ends.bind (get_dma_addr h.at_ h.inside hv) ?_
      intro d hd
      exact ⟨h.points_bus hd (fun k _ hk => h.reach.aper ht rfl hm d.addr k hd.address hk),
        hd.found.valid⟩

theorem Place.gtt : Ends (ioremapRemoteGtt env loopback c m) (Fails env bug) (Points c m) := by
  refine Ends.bind (h.ioremap ht (h.at_.sound.valid_init h.at_.lower)) ?_
  exact fun r hr => hr.1

end

theorem Place.virt (hl : Located env.bus c d) (hb : env.mic = false → loopback = true → bug) :
    Ends (placeVirt env loopback c d.addr m) (Fails env bug) (Points c m) := by
  unfold placeVirt
  cases hlc : isLocalDmaAddr env d.addr with
  | true =>
    refine h.local_va ?_
    cases ht : c.window.type with
    | self => exact .inl rfl
    | peer =>
      cases loopback with
      | true => exact .inr rfl
      | false =>
        have := h.reach.away ht rfl d.addr hl.address
        rw [hlc] at this
        cases this
  | false =>
    cases ht : c.window.type with
    | peer => exact h.gtt ht
    | self =>
      have hn : ¬ (env.mic = true ∨ loopback = false) := by
        intro hr
        have := h.reach.own ht hr d.addr hl.address
        rw [hlc] at this
        cases this
      obtain ⟨hm,hlp⟩ := not_or.mp hn
      obtain rfl : loopback = true := Bool.eq_true_of_not_eq_false hlp
      have hm' := Bool.eq_false_of_not_eq_true hm
      exact gtt_own ht hm' (hb hm' rfl)

theorem Place.window_virt :
    Ends (windowVirt env loopback c m) (Fails env bug)
      (fun r => Points c m r.1 ∧ Valid env.bus c.window c.offset r.2) := by
  unfold windowVirt
  cases ht : c.window.type with
  | self =>
    refine Ends.bind (h.local_va (.inl ht)) ?_
    exact fun p hp => ⟨hp,h.at_.valid⟩
  | peer => exact h.ioremap ht h.at_.valid

end

theorem enter_ends (h : On bus P c) (hl : c.offset < limit c) :
    Ends (orBug c.enter) fails (Entered bus P c) := by
  obtain ⟨d,hd,he⟩ := h.enter hl
  exact or_bug_ends hd he

end Mpss.Proofs.RmaPlaces
