import Mpss.Scif.Window

namespace Mpss.Scif.Mapping
open Scif.Window

/-- A mapped area of `nrPages` pages from file page `pgoff` on. -/
structure Vma where
  pgoff : Nat
  nrPages : Nat
  prot : Nat
deriving DecidableEq

def Vma.offset (v : Vma) : Int := v.pgoff * pageSize

structure ScifRange where
  window : Nat
  offset : Int
  nrPages : Int
deriving DecidableEq

/-- The peer's side of an endpoint. `sent` lists the windows that `SCIF_DELETE_WINDOW` was sent for,
`unregistered` those that `SCIF_UNREGISTER` came for. -/
structure Peer where
  windows : List ScifWindow
  vmas : List Vma
  ranges : List ScifRange
  sent : List Nat
  unregistered : List Nat
  nextId : Nat

def Peer.init : Peer :=
  { windows := [],vmas := [],ranges := [],sent := [],unregistered := [],nextId := 0 }

def loopNrPages (w : ScifWindow) (loopOffset left : Int) : Int :=
  min (toInt32 ((w.endOffset - loopOffset) / pageSize)) left

/-- The second loop of `scif_rma_list_mmap`, which counts the pages. -/
def bumpMapped : List ScifWindow → Int → Int → List ScifWindow
  | [],_,_ => []
  | w :: ws,loopOffset,left =>
    let n := loopNrPages w loopOffset left
    let w' := { w with mappedPages := toInt32 (w.mappedPages + n) }
    if left - n = 0 then w' :: ws
    else w' :: bumpMapped ws (loopOffset + n * pageSize) (left - n)

/-- Apply a loop to the part of the list that starts at the window `start`. -/
def fromWindow (start : ScifWindow) (loop : List ScifWindow → List ScifWindow)
    (ws : List ScifWindow) : List ScifWindow :=
  ws.takeWhile (fun w => w.id ≠ start.id) ++ loop (ws.dropWhile (fun w => w.id ≠ start.id))

variable (ws : List ScifWindow)

def scifRmaListMmap (start : ScifWindow) (offset nrPages : Int) : List ScifWindow :=
  fromWindow start (fun l => bumpMapped l offset nrPages) ws

/-- The window is the last one's to release: `SCIF_UNREGISTER` came and no page is mapped. -/
def isReleased (w : ScifWindow) : Bool := w.unregState = .requested ∧ w.mappedPages = 0

/-- The loop of `scif_rma_list_munmap`: the windows left on the list and those deleted. -/
def munmapLoop : List ScifWindow → Int → Int → List ScifWindow × List Nat
  | [],_,_ => ([],[])
  | w :: ws,loopOffset,left =>
    let n := loopNrPages w loopOffset left
    let w' := { w with mappedPages := toInt32 (w.mappedPages - n) }
    let (kept,deleted) :=
      if left - n = 0 then (ws,[]) else munmapLoop ws (loopOffset + n * pageSize) (left - n)
    if isReleased w' then (kept,w'.id :: deleted) else (w' :: kept,deleted)

def scifRmaListMunmap (start : ScifWindow) (offset nrPages : Int) : List ScifWindow × List Nat :=
  let (kept,deleted) := munmapLoop (ws.dropWhile (fun w => w.id ≠ start.id)) offset nrPages
  (ws.takeWhile (fun w => w.id ≠ start.id) ++ kept,deleted)

def Vma.req (v : Vma) : ScifRmaReq :=
  { offset := v.offset,nrBytes := v.nrPages * 4096,prot := v.prot,type := .part }

variable (s : Peer)

/-- `scif_mmap`; `remap` says whether the allocations and `remap_pfn_range` succeed. -/
def scifMmap (v : Vma) (remap : Bool) : Int × Peer :=
  match scifQueryWindow s.windows v.req with
  | .ok (some window) =>
    if remap then
      (0,{ s with windows := scifRmaListMmap s.windows window v.offset (toInt32 v.nrPages)
                  vmas := v :: s.vmas })
    else (-enomem,s)
  | .ok none => (-enxio,s)
  | .error err => (err,s)

def scifMunmap (v : Vma) : Peer :=
  match scifQueryWindow s.windows v.req with
  | .ok (some window) =>
    let (kept,deleted) := scifRmaListMunmap s.windows window v.offset (toInt32 v.nrPages)
    { s with windows := kept,vmas := s.vmas.erase v,sent := s.sent ++ deleted }
  | _ => { s with vmas := s.vmas.erase v }

/-- Change the window that a pointer names. -/
def updateWindow (id : Nat) (f : ScifWindow → ScifWindow) : List ScifWindow :=
  ws.map (fun w => if w.id = id then f w else w)

def addMapped (n : Int) (w : ScifWindow) : ScifWindow :=
  { w with mappedPages := toInt32 (w.mappedPages + n) }

def scifGetPages (offset : Int) (len : Nat) (mem : Bool) : Int × Peer :=
  if len = 0 ∨ offset < 0 ∨ 2 ^ 64 ≤ offset + len ∨ offset % pageSize ≠ 0 ∨ len % 4096 ≠ 0 then
    (-einval,s)
  else
    let nrPages := toInt32 (len / 4096 : Nat)
    match scifQueryWindow s.windows { offset := offset,nrBytes := len,prot := 0,type := .single } with
    | .ok (some window) =>
      if mem then
        (0,{ s with windows := updateWindow s.windows window.id (addMapped nrPages)
                    ranges := ⟨window.id,offset,nrPages⟩ :: s.ranges })
      else (-enomem,s)
    | .ok none => (-enxio,s)
    | .error err => (err,s)

def scifPutPages (r : ScifRange) : Peer :=
  let windows := updateWindow s.windows r.window (addMapped (-r.nrPages))
  let ranges := s.ranges.erase r
  if windows.any (fun w => w.id = r.window ∧ w.unregState = .accepted) then
    { s with windows := windows.filter (fun w => w.id ≠ r.window),ranges := ranges
             sent := s.sent ++ [r.window] }
  else { s with windows := windows,ranges := ranges }

def scifRecvUnreg (recv : ScifWindow) : Peer :=
  let req :=
    { offset := recv.offset,nrBytes := (recv.nrPages * pageSize).toNat,prot := 0,type := .full }
  match scifQueryWindow s.windows req with
  | .ok (some window) =>
    let windows := updateWindow s.windows window.id (fun w => { w with unregState := .requested })
    if window.mappedPages = 0 then
      { s with windows := windows.filter (fun w => w.id ≠ window.id),sent := s.sent ++ [window.id]
               unregistered := recv.id :: s.unregistered }
    else { s with windows := windows,unregistered := recv.id :: s.unregistered }
  | _ => { s with unregistered := recv.id :: s.unregistered }

inductive Act
  | register (offset nrPages : Int) (prot : Nat)
  | mmap (v : Vma) (remap : Bool)
  | split (v : Vma) (n : Nat)
  | munmap (v : Vma)
  | getPages (offset : Int) (len : Nat) (mem : Bool)
  | putPages (r : ScifRange)
  | unregister (w : ScifWindow)

/-- What the owner guarantees of a new window: whole pages of its own, a size that the
`int` of `SCIF_ALLOC_REQ` can carry. -/
def Fresh (offset nrPages : Int) : Prop :=
  0 ≤ offset ∧ offset % pageSize = 0 ∧ 0 < nrPages ∧ nrPages < 2 ^ 31 ∧
    ∀ w ∈ ws,w.endOffset ≤ offset ∨ offset + nrPages * pageSize ≤ w.offset
deriving Decidable

/-- Areas are split by the kernel; only live areas and ranges are released, and
`SCIF_UNREGISTER` comes at most once for a window. -/
def Peer.step : Act → Option Peer
  | .register offset nrPages prot =>
    if Fresh s.windows offset nrPages then
      let w := ⟨s.nextId,offset,nrPages,prot,0,.notInitiated⟩
      some { s with windows := scifInsertWindow w s.windows,nextId := s.nextId + 1 }
    else none
  | .mmap v remap => if 0 < v.nrPages then some (scifMmap s v remap).2 else none
  | .split v n =>
    if v ∈ s.vmas ∧ 0 < n ∧ n < v.nrPages then
      some { s with
        vmas := ⟨v.pgoff,n,v.prot⟩ :: ⟨v.pgoff + n,v.nrPages - n,v.prot⟩ :: s.vmas.erase v }
    else none
  | .munmap v => if v ∈ s.vmas then some (scifMunmap s v) else none
  | .getPages offset len mem => some (scifGetPages s offset len mem).2
  | .putPages r => if r ∈ s.ranges then some (scifPutPages s r) else none
  | .unregister w =>
    if w ∈ s.windows ∧ w.id ∉ s.unregistered then some (scifRecvUnreg s w) else none

end Mpss.Scif.Mapping
