import Mpss.Micscif.Smpt
import Mpss.Scif.Copy

namespace Mpss.Micscif.RmaDma
open Library.Moves Scif.Transfer Micscif.Smpt
open Scif.Copy (pageSize WindowType Window Ptr virt Iter DmaAddr Cursor CopyWork Buffer
  scifInitWindowIter scifOffToDmaAddr bufferMoves headLen cacheAlign)

inductive Errno
  | enomem
  | ebusy
  | einval
  | enodev
  | erestartsys
deriving DecidableEq

/-- How a call ends that does not succeed: with an error, or in `BUG_ON`. -/
inductive Fault
  | errno (e : Errno)
  | bug
deriving DecidableEq

abbrev Call := Except Fault

def doDmaPolling : Nat := 1

def doDmaIntr : Nat := 2

/-- The arguments of one `do_dma`. -/
structure Dma where
  flags : Nat
  src : Nat
  dst : Nat
  len : Nat
deriving DecidableEq

/-- Copies by the CPU, transfers handed to the engine, waits until it is idle, and the completion
callback, which runs when it is. -/
inductive Act
  | cpu (vs : List Move)
  | dma (d : Dma)
  | drain
  | callback (vs : List Move)

/-- The build, `mic` for `_MIC_SCIF_`, and what the kernel answers. `bus` is the cell behind a DMA
address, `aper` the one that the host sees there. -/
structure Env where
  mic : Bool
  numPhyspages : Nat
  bus : Nat → Nat
  aper : Nat → Nat
  physToVirt : Nat → Nat
  virtToPhys : Nat → Nat
  ioremapNocache : Nat → Nat → Option Ptr
  mapSingle : Nat → Option Nat
  kzalloc : Bool
  kmalloc : Nat → Option Buffer
  kmemCacheAlloc : Option Buffer
  doDma : Dma → Option Errno
  drainDmaPoll : Option Errno
  drainDmaIntr : Option Errno
  requestDmaChannel : Option Errno

variable (env : Env)

/-- The memory operations behind an act. -/
def Act.op : Act → Op
  | .cpu vs => .now vs
  | .dma d => .later (span (fun k => env.bus (d.dst + k)) (fun k => env.bus (d.src + k)) d.len)
  | .drain => .after []
  | .callback vs => .after vs

def ops (acts : List Act) : List Op := acts.map (Act.op env)

def orBug : Option α → Call α
  | some a => .ok a
  | none => .error .bug

/-- A call whose result is an error or zero. -/
def attempt (err : Option Errno) (a : α) : Call α :=
  match err with
  | none => .ok a
  | some e => .error (.errno e)

def doDma (d : Dma) : Call Act := attempt (env.doDma d) (.dma d)

def isLocalDmaAddr (addr : Nat) : Bool :=
  if env.mic then addr / pageSize < env.numPhyspages else isMicSystemAddr addr

def micscifGetDmaAddr (w : Window) (off : Nat) (iter : Iter) : Call DmaAddr :=
  orBug (scifOffToDmaAddr w off iter)

/-- `micscif_get_dma_addr` without an index to start from. -/
def dmaAddrAt (c : Cursor) : Call DmaAddr := micscifGetDmaAddr c.window c.offset
    (scifInitWindowIter c.window)

def getLocalVa (w : Window) (off : Nat) : Call Ptr :=
  if w.type = .self then orBug (Scif.Copy.getLocalVa w off)
  else do
    let d ← micscifGetDmaAddr w off (scifInitWindowIter w)
    return virt (env.physToVirt d.addr)

/-- The pages that the other end of a loopback connection has pinned; the peer of an own window
has pinned none. -/
def peerVa (w : Window) (off : Nat) : Call Ptr :=
  if w.type = .peer then do
    let page ← orBug w.pages[(off - w.offset) / pageSize]?
    return virt (page + off % pageSize)
  else .error .bug

variable (loopback : Bool)

def ioremapRemote (w : Window) (off len : Nat) (iter : Iter) : Call (Ptr × Iter) :=
  if env.mic then do
    let d ← micscifGetDmaAddr w off iter
    if loopback then return (virt (env.physToVirt d.addr),d.iter)
    else
      match env.ioremapNocache d.addr len with
      | some p => return (p,d.iter)
      | none => .error (.errno .enomem)
  else if loopback then do
    let p ← peerVa w off
    return (p,iter)
  else do
    let d ← micscifGetDmaAddr w off iter
    return (fun k => env.aper (d.addr + k),d.iter)

def ioremapRemoteGtt (c : Cursor) (len : Nat) : Call Ptr := do
  let r ← ioremapRemote env loopback c.window c.offset len (scifInitWindowIter c.window)
  return r.1

def orderedMemcpy (dst src : Ptr) (count : Nat) : List Act :=
  if count = 0 then []
  else [.cpu (span dst src (count - 1)),.cpu (span (dst.add (count - 1)) (src.add (count - 1)) 1)]

def micscifUnalignedMemcpy (dst src : Ptr) (count : Nat) (ordered : Bool) : List Act :=
  if ordered then orderedMemcpy dst src count else [.cpu (span dst src count)]

def localLoop (toTemp : Bool) : Nat → Cursor → Nat → Nat → Call (List Move)
  | _,_,_,0 => .ok []
  | 0,_,_,_ + 1 => .error .bug
  | fuel + 1,c,temp,remaining + 1 => do
    let c ← orBug c.enter
    let loopLen := min pageSize (remaining + 1)
    let va ← getLocalVa env c.window c.offset
    let rest ← localLoop toTemp fuel (c.advance c.iter loopLen) (temp + loopLen)
      (remaining + 1 - loopLen)
    return bufferMoves toTemp va (virt temp) loopLen ++ rest

def micscifRmaLocalCpuCopy (c : Cursor) (temp len : Nat) (toTemp : Bool) : Call (List Move) :=
  if c.window.type ≠ .self then .error .bug
  else do
    let loopLen := min (pageSize - c.offset % pageSize) len
    let va ← getLocalVa env c.window c.offset
    let rest ← localLoop env toTemp (len - loopLen) (c.advance c.iter loopLen) (temp + loopLen)
      (len - loopLen)
    return bufferMoves toTemp va (virt temp) loopLen ++ rest

variable (ordered : Bool)

/-- The last piece of an ordered copy without a tail is split, so that its last cache line is
written last. -/
def splits (tailLen loopLen remaining : Nat) : Bool :=
  ordered && tailLen = 0 && remaining - loopLen = 0 && loopLen ≠ l1CacheBytes

/-- The transfers for one contiguous piece; less than a cache line would be a length below zero. -/
def dmaPiece (tailLen src dst loopLen remaining : Nat) : Call (List Act) :=
  if splits ordered tailLen loopLen remaining then
    if loopLen < l1CacheBytes then .error .bug
    else do
      let first := loopLen - l1CacheBytes
      let body ← doDma env ⟨doDmaPolling,src,dst,first⟩
      let last ← doDma env ⟨0,src + first,dst + first,remaining - first⟩
      return [body,last]
  else do
    let flags := if remaining = loopLen + l1CacheBytes then doDmaPolling else 0
    let body ← doDma env ⟨flags,src,dst,loopLen⟩
    return [body]

/-- The loop of `micscif_rma_list_dma_copy_aligned`. Every turn copies a byte at least, so that
`fuel` of the length is enough. -/
def dmaLoop (tailLen : Nat) : Nat → Cursor → Cursor → Nat → Call (List Act × Cursor × Cursor)
  | _,src,dst,0 => .ok ([],src,dst)
  | 0,_,_,_ + 1 => .error .bug
  | fuel + 1,src,dst,remaining + 1 => do
    let src ← orBug src.enter
    let dst ← orBug dst.enter
    let s ← micscifGetDmaAddr src.window src.offset src.iter
    let d ← micscifGetDmaAddr dst.window dst.offset dst.iter
    let loopLen := min (min s.nrBytes d.nrBytes) (remaining + 1)
    let piece ← dmaPiece env ordered tailLen s.addr d.addr loopLen (remaining + 1)
    let rest ← dmaLoop tailLen fuel (src.advance s.iter loopLen) (dst.advance d.iter loopLen)
      (remaining + 1 - loopLen)
    return (piece ++ rest.1,rest.2)

/-- How the CPU gets at a place, by its DMA address. -/
def placeVirt (c : Cursor) (addr len : Nat) : Call Ptr :=
  if isLocalDmaAddr env addr then getLocalVa env c.window c.offset
    else ioremapRemoteGtt env loopback c len

def copyPiece (src dst : Cursor) (srcDma dstDma len : Nat) (ordered : Bool) : Call (List Act) := do
  let p ← placeVirt env loopback src srcDma len
  let q ← placeVirt env loopback dst dstDma len
  return if isLocalDmaAddr env srcDma then micscifUnalignedMemcpy q p len ordered
    else [.cpu (span q p len)]

variable (work : CopyWork)

def copyHead : Call (List Act) :=
  if work.src.offset % l1CacheBytes = 0 then .ok []
  else do
    let len := headLen work.src.offset work.len
    let s ← dmaAddrAt work.src
    let d ← dmaAddrAt work.dst
    copyPiece env work.loopback work.src work.dst s.addr d.addr len (work.len = len && work.ordered)

/-- The CPU copies the tail of an ordered copy after the engine has finished. -/
def drainFirst (drain : Option Errno) : Call (List Act) :=
  if ordered then attempt drain [.drain] else .ok []

def copyTail (src dst : Cursor) (tailLen : Nat) : Call (List Act) :=
  if tailLen = 0 then .ok []
  else do
    let src ← orBug src.enter
    let dst ← orBug dst.enter
    let s ← dmaAddrAt src
    let d ← dmaAddrAt dst
    let drained ← drainFirst work.ordered env.drainDmaPoll
    let tail ← copyPiece env work.loopback src dst s.addr d.addr tailLen work.ordered
    return drained ++ tail

def micscifRmaListDmaCopyAligned : Call (List Act) :=
  if work.src.offset % l1CacheBytes ≠ work.dst.offset % l1CacheBytes then .error .bug
  else do
    let headLen := headLen work.src.offset work.len
    let head ← copyHead env work
    let tailLen := (work.len - headLen) % l1CacheBytes
    let remaining := work.len - headLen - tailLen
    let body ← dmaLoop env work.ordered tailLen remaining
      (work.src.start.advance work.src.start.iter headLen)
      (work.dst.start.advance work.dst.start.iter headLen)
      remaining
    let tail ← copyTail env work body.2.1 body.2.2 tailLen
    return head ++ body.1 ++ tail

def windowVirt (c : Cursor) (len : Nat) : Call (Ptr × Iter) :=
  match c.window.type with
  | .self => do
    let p ← getLocalVa env c.window c.offset
    return (p,c.iter)
  | .peer => ioremapRemote env loopback c.window c.offset len c.iter

def cpuLoop : Nat → Cursor → Cursor → Nat → Call (List Act)
  | _,_,_,0 => .ok []
  | 0,_,_,_ + 1 => .error .bug
  | fuel + 1,src,dst,remaining + 1 => do
    let loopLen := min (pageSize - max (src.offset % pageSize) (dst.offset % pageSize)) (remaining + 1)
    let s ← windowVirt env loopback src loopLen
    let d ← windowVirt env loopback dst loopLen
    if remaining + 1 - loopLen = 0 then return [.cpu (span d.1 s.1 loopLen)]
    else
      let src ← orBug (src.advance s.2 loopLen).enter
      let dst ← orBug (dst.advance d.2 loopLen).enter
      let rest ← cpuLoop fuel src dst (remaining + 1 - loopLen)
      return .cpu (span d.1 s.1 loopLen) :: rest

def micscifRmaListCpuCopy : Call (List Act) :=
  cpuLoop env work.loopback work.len work.src.start work.dst.start work.len

def tempCopy (srcLocal : Bool) (window : Ptr) (temp len : Nat) (ordered : Bool) : List Act :=
  if srcLocal then micscifUnalignedMemcpy window (virt temp) len ordered
  else [.cpu (span (virt temp) window len)]

def tempHead (loopback ordered srcLocal : Bool) (c : Cursor) (temp len : Nat) : Call (List Act) :=
  if c.offset % l1CacheBytes = 0 then .ok []
  else do
    let headLen := headLen c.offset len
    let p ← ioremapRemoteGtt env loopback c headLen
    return tempCopy srcLocal p temp headLen (ordered && len - headLen = 0)

def tempPiece (ordered srcLocal : Bool) (tailLen windowDma tempDma loopLen remaining : Nat) :
    Call (List Act) :=
  if srcLocal then dmaPiece env ordered tailLen tempDma windowDma loopLen remaining
  else do
    let body ← doDma env ⟨0,windowDma,tempDma,loopLen⟩
    return [body]

/-- The loop of `micscif_rma_list_dma_copy_unaligned`: the transfers, and where the window and the
buffer were left. After a split only the second transfer's bytes are added to the buffer's
addresses. -/
def tempLoop (ordered srcLocal : Bool) (tailLen : Nat) : Nat → Cursor → Nat → Nat → Nat →
    Call (List Act × Cursor × Nat)
  | _,c,temp,_,0 => .ok ([],c,temp)
  | 0,_,_,_,_ + 1 => .error .bug
  | fuel + 1,c,temp,tempPhys,remaining + 1 => do
    let c ← orBug c.enter
    let tempDma := if env.mic then env.virtToPhys temp else tempPhys
    let w ← dmaAddrAt c
    let loopLen := min w.nrBytes (remaining + 1)
    let piece ← tempPiece env ordered srcLocal tailLen w.addr tempDma loopLen (remaining + 1)
    let step := if srcLocal && splits ordered tailLen loopLen
      (remaining + 1) then l1CacheBytes else loopLen
    let rest ← tempLoop ordered srcLocal tailLen fuel (c.advance c.iter loopLen) (temp + step)
      (tempPhys + step) (remaining + 1 - loopLen)
    return (piece ++ rest.1,rest.2)

def tempTail (loopback ordered srcLocal : Bool) (c : Cursor) (temp tailLen : Nat) : Call (List Act) :=
  if tailLen = 0 then .ok []
  else do
    let c ← orBug c.enter
    let p ← ioremapRemoteGtt env loopback c tailLen
    let drained ← drainFirst ordered env.drainDmaIntr
    return drained ++ tempCopy srcLocal p temp tailLen ordered

/-- The channel, which is released for the wait before an ordered tail, is taken again. -/
def takeChannel (released : Bool) : Call Unit :=
  if released then attempt env.requestDmaChannel () else .ok ()

def micscifRmaListDmaCopyUnaligned (temp tempPhys : Nat) (srcLocal : Bool) : Call (List Act) := do
  let c := if srcLocal then work.dst.start else work.src.start
  let headLen := headLen c.offset work.len
  let head ← tempHead env work.loopback work.ordered srcLocal c temp work.len
  let tailLen := (work.len - headLen) % l1CacheBytes
  let remaining := work.len - headLen - tailLen
  let body ← tempLoop env work.ordered srcLocal tailLen remaining (c.advance c.iter headLen)
    (temp + headLen) (tempPhys + headLen) remaining
  let tail ← tempTail env work.loopback work.ordered srcLocal body.2.1 body.2.2 tailLen
  let _ ← takeChannel env (work.ordered && tailLen ≠ 0)
  let last ← doDma env ⟨doDmaIntr,0,0,0⟩
  return head ++ body.1 ++ tail ++ [last]

def kmemUnalignedBufSize : Nat := 1024 * 1024 + 2 * l1CacheBytes

/-- `struct dma_completion_cb`; `dst` is the window and the offset to copy the buffer to. -/
structure DmaCompletionCb where
  dst : Option Cursor
  len : Nat
  tempBuf : Nat
  headerPadding : Nat

def micscifRmaCompletionCb (cb : DmaCompletionCb) : Call (List Move) :=
  match cb.dst with
  | some c => micscifRmaLocalCpuCopy env c (cb.tempBuf + cb.headerPadding) cb.len false
  | none => .ok []

/-- Where the allocation for the temporary buffer comes from. -/
def tempBuffer (len : Nat) : Option Buffer :=
  if len + 2 * l1CacheBytes < kmemUnalignedBufSize then env.kmalloc (len + 2 * l1CacheBytes)
  else env.kmemCacheAlloc

/-- Where the buffer starts in its allocation: `kmalloc` need not return the start of a cache
line. -/
def tempStart (b : Buffer) (len : Nat) : Nat :=
  if len + 2 * l1CacheBytes < kmemUnalignedBufSize then cacheAlign b.addr else b.addr

def orEnomem : Option α → Call α
  | some a => .ok a
  | none => .error (.errno .enomem)

/-- The DMA address of the buffer, which a card does not need to map. -/
def mapTemp (temp : Nat) : Call Nat := if env.mic then .ok 0 else orEnomem (env.mapSingle temp)

def asEnomem : Call α → Call α
  | .error (.errno _) => .error (.errno .enomem)
  | x => x

/-- The copy through the buffer, with what the callback does when the transfers are complete. -/
def copyThroughBuffer (temp : Nat) (srcLocal : Bool) : Call (List Act) :=
  if srcLocal then do
    let temp := temp + work.dst.offset % l1CacheBytes
    let fill ← micscifRmaLocalCpuCopy env work.src.start temp work.len true
    let tempPhys ← mapTemp env temp
    let acts ← asEnomem (micscifRmaListDmaCopyUnaligned env work temp tempPhys true)
    let done ← micscifRmaCompletionCb env ⟨none,0,temp,0⟩
    return .cpu fill :: (acts ++ [.callback done])
  else do
    let headerPadding := work.src.offset % l1CacheBytes
    let lines := { work with
      src := { work.src with offset := work.src.offset - headerPadding }
      len := cacheAlign (work.len + headerPadding) }
    let tempPhys ← mapTemp env temp
    let acts ← asEnomem (micscifRmaListDmaCopyUnaligned env lines temp tempPhys false)
    let done ← micscifRmaCompletionCb env ⟨some work.dst.start,work.len,temp,headerPadding⟩
    return acts ++ [.callback done]

def micscifRmaListDmaCopyWrapper : Call (List Act) :=
  if work.dst.offset % l1CacheBytes = work.src.offset % l1CacheBytes then
    micscifRmaListDmaCopyAligned env work
  else if work.loopback then
    if env.mic then
      match micscifRmaListCpuCopy env work with
      | .ok acts => .ok acts
      | .error _ => .error .bug
    else .error .bug
  else do
    let s ← dmaAddrAt work.src
    let _ ← dmaAddrAt work.dst
    if work.len + 2 * l1CacheBytes > kmemUnalignedBufSize then .error .bug
    else if env.kzalloc then do
      let b ← orEnomem (tempBuffer env work.len)
      copyThroughBuffer env work (tempStart b work.len) (isLocalDmaAddr env s.addr)
    else .error (.errno .enomem)

end Mpss.Micscif.RmaDma
