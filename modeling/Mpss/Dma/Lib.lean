import Mathlib.Algebra.Order.Ring.Int

namespace Mpss.Dma.Lib
open Function

def maxPollTailReadRetries : Nat := 20

/-- A ring of completions; `tailLocation` is the word the engine writes. -/
structure ComplBufRing where
  head : Nat
  tail : Nat
  size : Nat
  tailLocation : Int

def initRing (size : Nat) : ComplBufRing := { head := 0,tail := 0,size := size,tailLocation := -1 }

def incrRbIndex (curIndex : Int) (ringSize : Nat) : Nat := ((curIndex + 1) % ringSize).toNat

variable (ring : ComplBufRing)

def updateTail (newTail : Nat) : ComplBufRing := { ring with tail := newTail }

def readTail : Nat := incrRbIndex ring.tailLocation ring.size

/-- The loop of `avail_space_in_ring`, with the evaluations left; its result is a `bool`. -/
def availLoop (ring : ComplBufRing) : Nat → Bool × ComplBufRing
  | 0 => (false,ring)
  | n + 1 =>
    if ring.head = ring.tail then (ring.size - 1 != 0,ring)
    else
      let count :=
        if ring.head > ring.tail then ring.tail + (ring.size - ring.head) else ring.tail - ring.head
      if count ≠ 1 then (count - 1 != 0,ring)
      else if n = 0 then (false,ring)
      else availLoop (updateTail ring (readTail ring)) n

def availSpaceInRing : Bool × ComplBufRing := availLoop ring maxPollTailReadRetries

def isEntryProcessed (index : Nat) : Bool :=
  if ring.head < ring.tail then index ≥ ring.head && index < ring.tail
  else index ≥ ring.head || index < ring.tail

def incrHead : ComplBufRing := { ring with head := incrRbIndex ring.head ring.size }

def allocateBuffer : Option Nat × ComplBufRing :=
  let avail := availSpaceInRing ring
  (if avail.1 then some avail.2.head else none,avail.2)

/-- What a build fixes: `mk1om` for `CONFIG_MK1OM`, and the bytes one descriptor can move. -/
structure Config where
  mk1om : Bool
  maxDmaXferSize : Nat
  pos : 0 < maxDmaXferSize

/-- Where a status descriptor writes: the tail location of a ring of the channel, or elsewhere. -/
inductive Dap
  | intrRing
  | pollRing
  | phys (addr : Nat)
deriving DecidableEq

inductive Desc
  | memcpy (src dst size : Nat)
  | status (data : Nat) (dap : Dap) (intr : Bool)
deriving DecidableEq

/-- One channel with the registers of its engine, and, not in the driver, every descriptor written
and those executed. -/
structure DmaChannel where
  numDescInRing : Nat
  descRing : Nat → Desc
  nextWriteIndex : Nat
  cachedTail : Nat
  dhpr : Nat
  dtpr : Nat
  intrRing : ComplBufRing
  oldTail : Nat
  compCbArray : Nat → Option Nat
  pollRing : ComplBufRing
  programmed : List Desc
  executed : List Desc

def tailPtrReadRetries : Nat := 500000

/-- The loop of `md_avail_desc_ring_space`, with the reads of the tail register left. -/
def availDescLoop (ch : DmaChannel) (required : Nat) : Nat → Nat × DmaChannel
  | 0 => (0,ch)
  | n + 1 =>
    if ch.nextWriteIndex = ch.cachedTail then (ch.numDescInRing - 1,ch)
    else
      let count :=
        if ch.nextWriteIndex > ch.cachedTail then
          ch.cachedTail + (ch.numDescInRing - ch.nextWriteIndex)
        else ch.cachedTail - ch.nextWriteIndex
      if count > required then (count - 1,ch)
      else availDescLoop { ch with cachedTail := ch.dtpr } required n

variable (ch : DmaChannel)

def mdAvailDescRingSpace (required : Nat) : Nat × DmaChannel :=
  availDescLoop ch required tailPtrReadRetries

def verifyNextWriteIndex : Bool := ch.nextWriteIndex < ch.numDescInRing

/-- Write a descriptor and move to the next index of the ring. -/
def DmaChannel.write (d : Desc) : DmaChannel :=
  { ch with
    descRing := update ch.descRing ch.nextWriteIndex d
    nextWriteIndex := incrRbIndex ch.nextWriteIndex ch.numDescInRing
    programmed := ch.programmed ++ [d] }

def mdMicDmaChanWriteHead : DmaChannel := { ch with dhpr := ch.nextWriteIndex }

def waitDescSpace (num : Nat) : Option DmaChannel :=
  let avail := mdAvailDescRingSpace ch num
  if num > avail.1 then none else some avail.2

variable (cfg : Config)

def writeTransfers (ch : DmaChannel) (src dst len : Nat) : Nat → Option DmaChannel
  | 0 => some ch
  | n + 1 =>
    let size := if len > cfg.maxDmaXferSize then cfg.maxDmaXferSize else len
    (waitDescSpace ch 1).bind (fun ch =>
      writeTransfers (ch.write (.memcpy src dst size)) (src + size) (dst + size) (len - size) n)

def programMemcpyDescriptors (ch : DmaChannel) (src dst len : Nat) : Option DmaChannel :=
  writeTransfers cfg ch src dst len ((len + cfg.maxDmaXferSize - 1) / cfg.maxDmaXferSize)

structure Flags where
  intr : Bool
  polling : Bool

def allocIntr (cb : Option Nat) : Option (Nat × DmaChannel) :=
  match allocateBuffer ch.intrRing with
  | (none,_) => none
  | (some i,ring) =>
    some (i,{ ch with intrRing := ring,compCbArray := update ch.compCbArray i cb })

def allocPoll : Option (Nat × DmaChannel) :=
  match allocateBuffer ch.pollRing with
  | (none,_) => none
  | (some i,ring) => some (i,{ ch with pollRing := ring })

/-- The status descriptors of one completion: `CONFIG_MK1OM` writes the index twice. -/
def intrDescs (index : Nat) : List Desc :=
  if cfg.mk1om then [.status index .intrRing false,.status index .intrRing true]
  else [.status index .intrRing true]

def DmaChannel.writeAll (ds : List Desc) : DmaChannel := ds.foldl DmaChannel.write ch

def intrStatus (ch : DmaChannel) (index : Nat) : DmaChannel :=
  { ch with intrRing := incrHead ch.intrRing }.writeAll (intrDescs cfg index)

def pollStatus (index : Nat) : DmaChannel :=
  { ch with pollRing := incrHead ch.pollRing }.write (.status index .pollRing false)

def numStatusDesc (flags : Flags) : Nat :=
  (if flags.intr then (intrDescs cfg 0).length else 0) + if flags.polling then 1 else 0

/-- The cookie and the channel; `none` for every error. -/
def doDma (ch : DmaChannel) (flags : Flags) (src dst len : Nat) (compCb : Option Nat) :
    Option (Nat × DmaChannel) :=
  if flags.intr ∧ compCb = none then none
  else if ¬ verifyNextWriteIndex ch then none
  else
    (if flags.intr then allocIntr ch compCb else some (0,ch)).bind (fun a =>
    (if flags.polling then allocPoll a.2 else some (0,a.2)).bind (fun b =>
    (if len ≠ 0 then programMemcpyDescriptors cfg b.2 src dst len else some b.2).bind (fun ch =>
    (if numStatusDesc cfg flags ≠ 0 then waitDescSpace ch (numStatusDesc cfg flags)
      else some ch).map (fun ch =>
        let ch := if flags.polling then pollStatus ch b.1 else ch
        let ch := if flags.intr then intrStatus cfg ch a.1 else ch
        (if flags.polling then b.1 else 0,mdMicDmaChanWriteHead ch)))))

def pollDmaCompletion (cookie : Nat) : Bool × DmaChannel :=
  let ring := updateTail ch.pollRing (readTail ch.pollRing)
  (isEntryProcessed ring cookie,{ ch with pollRing := ring })

def doStatusUpdate (addr value : Nat) : Option DmaChannel :=
  if ¬ verifyNextWriteIndex ch then none
  else
    (waitDescSpace ch 1).map (fun ch => mdMicDmaChanWriteHead
      (ch.write (.status value (.phys addr) false)))

/-- The mark and the channel; `none` for every error. -/
def programDmaMark (ch : DmaChannel) : Option (Nat × DmaChannel) :=
  if ¬ verifyNextWriteIndex ch then none
  else
    (allocIntr ch none).bind (fun a =>
    (waitDescSpace a.2 (intrDescs cfg 0).length).map (fun ch =>
      (a.1,mdMicDmaChanWriteHead (intrStatus cfg ch a.1))))

def isDmaMarkProcessed (mark : Nat) : Bool := isEntryProcessed ch.intrRing mark

/-- How a wait stands: it goes on unless the mark is processed, a signal came, or the time is up and
the tail register has not moved. -/
def dmaMarkWait (mark : Nat) (signalled expired : Bool) : Option Int :=
  if isDmaMarkProcessed ch mark then some 0
  else if signalled then some (-512)
  else if expired then some (-16)
  else none

/-- The loop of `mic_dma_lib_interrupt_handler` with the turns left: the callbacks called and the
array with their slots empty. -/
def handlerLoop (size newTail : Nat) : Nat → Nat → (Nat → Option Nat) → List Nat × (Nat → Option Nat)
  | 0,_,cbs => ([],cbs)
  | n + 1,oldTail,cbs =>
    if oldTail = newTail then ([],cbs)
    else
      let r := handlerLoop size newTail n (incrRbIndex oldTail size) (update cbs oldTail none)
      ((cbs oldTail).toList ++ r.1,r.2)

def micDmaLibInterruptHandler : List Nat × DmaChannel :=
  let newTail := readTail ch.intrRing
  let r := handlerLoop ch.intrRing.size newTail ch.intrRing.size ch.oldTail ch.compCbArray
  (r.1,{ ch with
    compCbArray := r.2,oldTail := newTail,intrRing := updateTail ch.intrRing newTail })

/-- What the engine does with a descriptor; the flag tells whether it raises an interrupt. -/
def DmaChannel.perform : Desc → Bool × DmaChannel
  | .memcpy _ _ _ => (false,ch)
  | .status data .intrRing intr =>
    (intr,{ ch with intrRing := { ch.intrRing with tailLocation := data } })
  | .status data .pollRing intr =>
    (intr,{ ch with pollRing := { ch.pollRing with tailLocation := data } })
  | .status _ (.phys _) intr => (intr,ch)

def execute : Option (Bool × DmaChannel) :=
  if ch.dtpr = ch.dhpr then none
  else
    let d := ch.descRing ch.dtpr
    let r := ch.perform d
    some (r.1,{ r.2 with
      dtpr := incrRbIndex ch.dtpr ch.numDescInRing,executed := ch.executed ++ [d] })

/-- The channel and its users. `submitted` holds, for each callback, how many descriptors there were
when its call returned; marks and cookies come with the place of their last status descriptor. -/
structure State where
  chan : DmaChannel
  pending : Bool
  submitted : List Nat
  invoked : List Nat
  marks : List (Nat × Nat)
  cookies : List (Nat × Nat)

/-- A channel set up with its rings empty, at any index of the descriptor ring. -/
def init (numComp numPoll numDesc start : Nat) (ring : Nat → Desc) : State :=
  { chan :=
      { numDescInRing := numDesc,descRing := ring,nextWriteIndex := start,cachedTail := start
        dhpr := start,dtpr := start,intrRing := initRing numComp,oldTail := 0
        compCbArray := fun _ => none,pollRing := initRing numPoll,programmed := [],executed := [] }
    pending := false,submitted := [],invoked := [],marks := [],cookies := [] }

inductive Act
  | dma (flags : Flags) (src dst len : Nat)
  | update (addr value : Nat)
  | mark
  | poll (cookie : Nat)
  | hardware
  | handle

def step (s : State) : Act → Option State
  | .dma flags src dst len =>
    (doDma cfg s.chan flags src dst len (some s.submitted.length)).map (fun r =>
      { s with
        chan := r.2
        submitted := if flags.intr then s.submitted ++ [r.2.programmed.length] else s.submitted
        cookies :=
          if flags.polling then
            s.cookies ++ [(r.1,r.2.programmed.length - 1 -
              if flags.intr then (intrDescs cfg 0).length else 0)]
          else s.cookies })
  | .update addr value => (doStatusUpdate s.chan addr value).map (fun ch => { s with chan := ch })
  | .mark =>
    (programDmaMark cfg s.chan).map (fun r =>
      { s with chan := r.2,marks := s.marks ++ [(r.1,r.2.programmed.length - 1)] })
  | .poll cookie => some { s with chan := (pollDmaCompletion s.chan cookie).2 }
  | .hardware =>
    (execute s.chan).map (fun r => { s with chan := r.2,pending := s.pending || r.1 })
  | .handle =>
    let r := micDmaLibInterruptHandler s.chan
    some { s with chan := r.2,pending := false,invoked := s.invoked ++ r.1 }

end Mpss.Dma.Lib
