import Mpss.Library.Moves
import Mpss.Scif.Transfer

namespace Mpss.Scif.Copy
open Library.Moves Scif.Transfer

def pageSize : Nat := 4096

inductive WindowType
  | self
  | peer
deriving DecidableEq

structure Chunk where
  dmaAddr : Nat
  numPages : Nat

/-- A registered window: its pages, and the contiguous chunks that DMA sees them in. -/
structure Window where
  type : WindowType
  offset : Nat
  nrPages : Nat
  pages : List Nat
  chunks : List Chunk

def Window.endOffset (w : Window) : Nat := w.offset + w.nrPages * pageSize

/-- The memory cell behind a bus address, and the bus address of kernel memory on the management
node and on a card. -/
structure Node where
  bus : Nat → Nat
  mapSingle : Nat → Nat
  virtToPhys : Nat → Nat
  mgmt : Bool

/-- An address that the CPU can use, as the memory cells from there on. -/
abbrev Ptr := Nat → Nat

def virt (a : Nat) : Ptr := fun k => a + k

def Ptr.add (p : Ptr) (n : Nat) : Ptr := fun k => p (n + k)

def memcpy (dst src : Ptr) (len : Nat) : Op := .now (span dst src len)

variable (node : Node)

/-- A descriptor that is prepared, submitted and completes at some time. -/
def dmaMemcpy (dst src len : Nat) : Op :=
  .later (span (fun k => node.bus (dst + k)) (fun k => node.bus (src + k)) len)

def scifDrainDma : Op := .after []

/-- The copy with the last byte apart when it is ordered. -/
def scifUnalignedCpy (dst src : Ptr) (count : Nat) (ordered : Bool) : List Op :=
  if ordered then
    if count = 0 then []
    else [memcpy dst src (count - 1),memcpy (dst.add (count - 1)) (src.add (count - 1)) 1]
  else [memcpy dst src count]

structure Iter where
  index : Nat
  offset : Nat

def scifInitWindowIter (w : Window) : Iter := ⟨0,w.offset⟩

structure DmaAddr where
  addr : Nat
  nrBytes : Nat
  iter : Iter

def findChunk (off : Nat) : List Chunk → Iter → Option DmaAddr
  | [],_ => none
  | c :: cs,iter =>
    let stop := iter.offset + c.numPages * pageSize
    if iter.offset ≤ off ∧ off < stop then some ⟨c.dmaAddr + (off - iter.offset),stop - off,iter⟩
    else findChunk off cs ⟨iter.index + 1,stop⟩

def scifOffToDmaAddr (w : Window) (off : Nat) (iter : Iter) : Option DmaAddr :=
  if w.nrPages = w.chunks.length then
    let pageOff := off % pageSize
    match w.chunks[(off - w.offset) / pageSize]? with
    | some c => some ⟨c.dmaAddr ||| pageOff,pageSize - pageOff,iter⟩
    | none => none
  else findChunk off (w.chunks.drop iter.index) iter

def getLocalVa (w : Window) (off : Nat) : Option Ptr :=
  if w.type = .self then
    match w.pages[(off - w.offset) / pageSize]? with
    | some page => some (virt (page + off % pageSize))
    | none => none
  else none

def ioremapRemote (w : Window) (off : Nat) (iter : Iter) : Option (Ptr × Iter) :=
  match scifOffToDmaAddr w off iter with
  | some d => some (fun k => node.bus (d.addr + k),d.iter)
  | none => none

/-- How the CPU gets at a window: its own one through its pages, the peer's through the bus. -/
def windowVirt (w : Window) (off : Nat) (iter : Iter) : Option (Ptr × Iter) :=
  match w.type with
  | .self =>
    match getLocalVa w off with
    | some p => some (p,iter)
    | none => none
  | .peer => ioremapRemote node w off iter

/-- A place in a list of windows. -/
structure Cursor where
  window : Window
  rest : List Window
  offset : Nat
  iter : Iter

variable (c : Cursor)

/-- At the end of a window, go on to the next one on the list. -/
def Cursor.enter : Option Cursor :=
  if c.offset = c.window.endOffset then
    match c.rest with
    | w :: ws => some ⟨w,ws,c.offset,scifInitWindowIter w⟩
    | [] => none
  else some c

def Cursor.advance (iter : Iter) (n : Nat) : Cursor := { c with offset := c.offset + n,iter := iter }

structure CopyWork where
  src : Cursor
  dst : Cursor
  len : Nat
  loopback : Bool
  ordered : Bool

def Cursor.start : Cursor := { c with iter := scifInitWindowIter c.window }

/-- The descriptors for one contiguous piece; the last `last` bytes of an ordered copy are one of
their own. A piece of less than `last` bytes would be a length below zero. -/
def descriptors (split : Option Nat) (dst src loopLen remaining : Nat) : Option (List Op) :=
  match split with
  | none => some [dmaMemcpy node dst src loopLen]
  | some last =>
    if remaining - loopLen = 0 then
      if loopLen < last then none
      else
        some [dmaMemcpy node dst src (loopLen - last),
          dmaMemcpy node (dst + (loopLen - last)) (src + (loopLen - last))
          (remaining - (loopLen - last))]
    else some [dmaMemcpy node dst src loopLen]

/-- The loop of the two aligned engines. Every turn copies a byte at least, so that `fuel` of
the length is enough. -/
def dmaLoop (split : Option Nat) : Nat → Cursor → Cursor → Nat → Option (List Op × Cursor × Cursor)
  | _,src,dst,0 => some ([],src,dst)
  | 0,_,_,_ + 1 => none
  | fuel + 1,src,dst,remaining + 1 => do
    let src ← src.enter
    let dst ← dst.enter
    let s ← scifOffToDmaAddr src.window src.offset src.iter
    let d ← scifOffToDmaAddr dst.window dst.offset dst.iter
    let loopLen := min (min s.nrBytes d.nrBytes) (remaining + 1)
    let ops ← descriptors node split d.addr s.addr loopLen (remaining + 1)
    let rest ← dmaLoop split fuel (src.advance s.iter loopLen) (dst.advance d.iter loopLen)
      (remaining + 1 - loopLen)
    return (ops ++ rest.1,rest.2)

variable (work : CopyWork)

/-- `_scif_rma_list_dma_copy_aligned`, for an engine that copies from and to any address. -/
def scifRmaListDmaCopyByteAligned : Option (List Op) := do
  let body ← dmaLoop node (if work.ordered then some 1 else none) work.len work.src.start
    work.dst.start work.len
  return body.1

def copyPiece (src dst : Cursor) (len : Nat) (ordered : Bool) : Option (List Op) := do
  let s ← windowVirt node src.window src.offset (scifInitWindowIter src.window)
  let d ← windowVirt node dst.window dst.offset (scifInitWindowIter dst.window)
  return scifUnalignedCpy d.1 s.1 len ordered

def headLen (off len : Nat) : Nat :=
  if off % l1CacheBytes = 0 then 0 else min (l1CacheBytes - off % l1CacheBytes) len

def copyHead : Option (List Op) :=
  let len := headLen work.src.offset work.len
  if work.src.offset % l1CacheBytes = 0 then some []
  else copyPiece node work.src work.dst len (work.len = len && work.ordered)

/-- The tail of a copy, which is done by the CPU, after the DMA for an ordered copy. -/
def copyTail (src dst : Cursor) (tailLen : Nat) (ordered : Bool) : Option (List Op) :=
  if tailLen = 0 then some []
  else do
    let src ← src.enter
    let dst ← dst.enter
    let tail ← copyPiece node src dst tailLen ordered
    return if ordered then scifDrainDma :: tail else tail

def scifRmaListDmaCopyAligned : Option (List Op) := do
  let src := work.src.start
  let dst := work.dst.start
  let headLen := headLen src.offset work.len
  let head ← copyHead node work
  let remaining := work.len - headLen
  let tailLen := remaining % l1CacheBytes
  let split := if work.ordered && tailLen = 0 then some l1CacheBytes else none
  let body ← dmaLoop node split (remaining - tailLen) (src.advance src.iter headLen)
    (dst.advance dst.iter headLen) (remaining - tailLen)
  let tail ← copyTail node body.2.1 body.2.2 tailLen work.ordered
  return head ++ body.1 ++ tail

def cpuLoop : Nat → Cursor → Cursor → Nat → Option (List Op)
  | _,_,_,0 => some []
  | 0,_,_,_ + 1 => none
  | fuel + 1,src,dst,remaining + 1 => do
    let loopLen := min (pageSize - max (src.offset % pageSize) (dst.offset % pageSize)) (remaining + 1)
    let s ← windowVirt node src.window src.offset src.iter
    let d ← windowVirt node dst.window dst.offset dst.iter
    let src := src.advance s.2 loopLen
    let dst := dst.advance d.2 loopLen
    if remaining + 1 - loopLen = 0 then return [memcpy d.1 s.1 loopLen]
    else
      let src ← src.enter
      let dst ← dst.enter
      let rest ← cpuLoop fuel src dst (remaining + 1 - loopLen)
      return memcpy d.1 s.1 loopLen :: rest

def scifRmaListCpuCopy : Option (List Op) :=
  cpuLoop node work.len work.src.start work.dst.start work.len

/-- The bytes that go between a window and the temporary buffer. -/
def bufferMoves (toTemp : Bool) (window temp : Ptr) (len : Nat) : List Move :=
  if toTemp then span temp window len else span window temp len

def localLoop (toTemp : Bool) : Nat → Cursor → Nat → Nat → Option (List Move)
  | _,_,_,0 => some []
  | 0,_,_,_ + 1 => none
  | fuel + 1,c,temp,remLen + 1 => do
    let c ← c.enter
    let loopLen := min pageSize (remLen + 1)
    let va ← getLocalVa c.window c.offset
    let rest ← localLoop toTemp fuel (c.advance c.iter loopLen) (temp + loopLen) (remLen + 1 - loopLen)
    return bufferMoves toTemp va (virt temp) loopLen ++ rest

def scifRmaLocalCpuCopy (temp remLen : Nat) (toTemp : Bool) : Option (List Move) := do
  let loopLen := min (pageSize - c.offset % pageSize) remLen
  let va ← getLocalVa c.window c.offset
  let rest ← localLoop toTemp (remLen - loopLen) (c.advance c.iter loopLen) (temp + loopLen)
    (remLen - loopLen)
  return bufferMoves toTemp va (virt temp) loopLen ++ rest

variable (srcLocal : Bool)

def tempPiece (c : Cursor) (temp len : Nat) (ordered : Bool) : Option (List Op) := do
  let p ← ioremapRemote node c.window c.offset (scifInitWindowIter c.window)
  return if srcLocal then scifUnalignedCpy p.1 (virt temp) len ordered
    else scifUnalignedCpy (virt temp) p.1 len ordered

def tempDescriptors (split : Option Nat) (windowDma tempDma loopLen remaining : Nat) :
    Option (List Op) :=
  if srcLocal then descriptors node split windowDma tempDma loopLen remaining
  else some [dmaMemcpy node tempDma windowDma loopLen]

/-- The loop of `scif_rma_list_dma_copy_unaligned`. After a split only the second descriptor's bytes
are added to the buffer's addresses. -/
def tempLoop (split : Option Nat) : Nat → Cursor → Nat → Nat → Nat → Option (List Op × Cursor × Nat)
  | _,c,temp,_,0 => some ([],c,temp)
  | 0,_,_,_,_ + 1 => none
  | fuel + 1,c,temp,tempPhys,remaining + 1 => do
    let c ← c.enter
    let tempDma := if node.mgmt then tempPhys else node.virtToPhys temp
    let w ← scifOffToDmaAddr c.window c.offset (scifInitWindowIter c.window)
    let loopLen := min w.nrBytes (remaining + 1)
    let split' := if loopLen = l1CacheBytes then none else split
    let ops ← tempDescriptors node srcLocal split' w.addr tempDma loopLen (remaining + 1)
    let step :=
      if srcLocal && split'.isSome && remaining + 1 - loopLen = 0 then l1CacheBytes else loopLen
    let rest ← tempLoop split fuel (c.advance c.iter loopLen) (temp + step) (tempPhys + step)
      (remaining + 1 - loopLen)
    return (ops ++ rest.1,rest.2)

def tempHead (c : Cursor) (temp len : Nat) (ordered : Bool) : Option (List Op) :=
  let headLen := headLen c.offset len
  if c.offset % l1CacheBytes = 0 then some []
  else tempPiece node srcLocal c temp headLen (ordered && len - headLen = 0)

def tempTail (c : Cursor) (temp tailLen : Nat) (ordered : Bool) : Option (List Op) :=
  if tailLen = 0 then some []
  else do
    let c ← c.enter
    let tail ← tempPiece node srcLocal c temp tailLen ordered
    return if ordered then scifDrainDma :: tail else tail

def scifRmaListDmaCopyUnaligned (temp tempPhys : Nat) (srcLocal : Bool) : Option (List Op) := do
  let c := if srcLocal then work.dst.start else work.src.start
  let headLen := headLen c.offset work.len
  let head ← tempHead node srcLocal c temp work.len work.ordered
  let remaining := work.len - headLen
  let tailLen := remaining % l1CacheBytes
  let split := if work.ordered && tailLen = 0 then some l1CacheBytes else none
  let body ← tempLoop node srcLocal split (remaining - tailLen) (c.advance c.iter headLen)
    (temp + headLen) (tempPhys + headLen) (remaining - tailLen)
  let tail ← tempTail node srcLocal body.2.1 body.2.2 tailLen work.ordered
  return head ++ body.1 ++ tail

def scifKmemUnalignedBufSize : Nat := scifMaxUnalignedBufSize + 2 * l1CacheBytes

def cacheAlign (n : Nat) : Nat := (n + (l1CacheBytes - 1)) / l1CacheBytes * l1CacheBytes

/-- The memory that an allocation of the temporary buffer returns: whole cache lines, though
they need not start at one. -/
structure Buffer where
  addr : Nat
  size : Nat
  lines : l1CacheBytes ∣ size

/-- The bytes that `scif_rma_list_dma_copy_wrapper` allocates. -/
def bufferLen (len : Nat) : Nat :=
  if len + 2 * l1CacheBytes < scifKmemUnalignedBufSize then len + 2 * l1CacheBytes
  else scifKmemUnalignedBufSize

/-- Where the temporary buffer starts. -/
def tempStart (b : Buffer) (len : Nat) : Nat :=
  if len + 2 * l1CacheBytes < scifKmemUnalignedBufSize then cacheAlign b.addr else b.addr

/-- The bounce buffer: filled before the copy to the peer, or emptied in `scif_rma_completion_cb`
after one from it. -/
def copyThroughBuffer (b : Buffer) (work : CopyWork) : Option (List Op) :=
  let temp := tempStart b work.len
  if work.src.window.type = .self then do
    let temp := temp + work.dst.offset % l1CacheBytes
    let fill ← scifRmaLocalCpuCopy work.src.start temp work.len true
    let ops ← scifRmaListDmaCopyUnaligned node work temp (node.mapSingle temp) true
    return .now fill :: (ops ++ [.after []])
  else do
    let headerPadding := work.src.offset % l1CacheBytes
    let aligned := { work with
      src := { work.src with offset := work.src.offset - headerPadding }
      len := cacheAlign (work.len + headerPadding) }
    let ops ← scifRmaListDmaCopyUnaligned node aligned temp (node.mapSingle temp) false
    let empty ← scifRmaLocalCpuCopy work.dst.start (temp + headerPadding) work.len false
    return ops ++ [.after empty]

/-- `byteAligned` when the channel can copy from and to any address. -/
def scifRmaListDmaCopyWrapper (byteAligned : Bool) (b : Buffer) (work : CopyWork) : Option (List Op) :=
  if byteAligned then scifRmaListDmaCopyByteAligned node work
  else if work.dst.offset % l1CacheBytes = work.src.offset % l1CacheBytes then
    scifRmaListDmaCopyAligned node work
  else if work.loopback then scifRmaListCpuCopy node work
  else copyThroughBuffer node b work

def scifRmaUsecpu : Nat := 1

/-- The copy of `scif_rma_copy`. -/
def rmaCopy (byteAligned : Bool) (b : Buffer) (flags : Nat) (work : CopyWork) : Option (List Op) :=
  let flags := if work.loopback && node.mgmt then flags ||| scifRmaUsecpu else flags
  if flags &&& scifRmaUsecpu ≠ 0 then scifRmaListCpuCopy node work
  else scifRmaListDmaCopyWrapper node byteAligned b work

/-- The inner loop: the pages after one at `prev` that go on physically where it ends. -/
def nrContigPages (prev : Nat) : List Nat → Nat
  | [] => 0
  | curr :: rest => if curr = prev + pageSize then nrContigPages curr rest + 1 else 0

/-- The outer loop over the physical pages from page `i` on. `mapSingle` gives the bus address of
contiguous pages, or fails; a card uses the physical one. -/
def mapChunks (mgmt : Bool) (mapSingle : Nat → Option Nat) : Nat → Nat → List Nat → Option (List Chunk)
  | _,_,[] => some []
  | 0,_,_ :: _ => none
  | fuel + 1,i,page :: rest => do
    let n := nrContigPages page rest
    let dmaAddr ← (if mgmt then mapSingle i else some page)
    let chunks ← mapChunks mgmt mapSingle fuel (i + (n + 1)) (rest.drop n)
    some (⟨dmaAddr,n + 1⟩ :: chunks)

/-- The inner loop: the entries that begin at `last`, which after each entry is one page behind the
beginning of the chunk. -/
def coalesce (dmaAddr : Nat) : Nat → List Nat → Nat
  | _,[] => 0
  | last,addr :: rest => if addr = last then coalesce dmaAddr (dmaAddr + pageSize) rest + 1 else 0

/-- The outer loop over the bus addresses of the entries, each of one page. -/
def dmaChunks : Nat → List Nat → List Chunk
  | _,[] => []
  | 0,_ :: _ => []
  | fuel + 1,addr :: rest =>
    let n := coalesce addr (addr + pageSize) rest
    ⟨addr,n + 1⟩ :: dmaChunks fuel (rest.drop n)

/-- How the pages of a window are mapped: physically contiguous pages one by one, or all with
`dma_map_sg`. -/
inductive Mapping
  | direct (mgmt : Bool) (mapSingle : Nat → Option Nat)
  | iommu (bus : List Nat)

def scifMapWindow (phys : List Nat) : Mapping → Option (List Chunk)
  | .direct mgmt mapSingle => mapChunks mgmt mapSingle phys.length 0 phys
  | .iommu bus => some (dmaChunks bus.length bus)

/-- Calls with one iterator, each with the address and the number of bytes it returns. -/
def translateAll (w : Window) : Iter → List Nat → List (Option (Nat × Nat))
  | _,[] => []
  | iter,off :: offs =>
    match scifOffToDmaAddr w off iter with
    | none => none :: translateAll w iter offs
    | some d => some (d.addr,d.nrBytes) :: translateAll w d.iter offs

/-- A call without an iterator. -/
def offToDma (w : Window) (off : Nat) : Option (Nat × Nat) :=
  (scifOffToDmaAddr w off (scifInitWindowIter w)).map (fun d => (d.addr,d.nrBytes))

end Mpss.Scif.Copy
