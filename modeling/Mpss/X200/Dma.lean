import Mathlib.Algebra.Order.Ring.Int

namespace Mpss.X200.Dma
open Function

def micDmaDescRxSize : Nat := 4 * 1024

def descValid : BitVec 64 := 1 <<< 31

def descIntrEnable : BitVec 64 := 1 <<< 30

def descLowMask : BitVec 64 := 0xffffffff

def descBits32To47 : BitVec 64 := 0xffff <<< 32

def descSizeMask : Nat := 2 ^ 27 - 1

/-- The probe function sets the transfer size of one descriptor to the size mask. -/
def maxXferSize : Nat := descSizeMask

def dmaPrepInterrupt : BitVec 32 := 1

def dmaMinCookie : Int := 1

/-- What an `int` holds after the conversion of `n`. -/
def s32 (n : Int) : Int := n.bmod (2 ^ 32)

structure MicDmaDesc where
  qw0 : BitVec 64
  qw1 : BitVec 64
deriving DecidableEq

def MicDmaDesc.Valid (d : MicDmaDesc) : Prop := d.qw0 &&& descValid ≠ 0
deriving Decidable

/-- With write back enabled the engine clears the valid bit of a descriptor it has executed. -/
def MicDmaDesc.done (d : MicDmaDesc) : MicDmaDesc := { d with qw0 := d.qw0 &&& ~~~descValid }

def micDmaMemcpyDesc (srcPhys dstPhys size : BitVec 64) (flags : BitVec 32) : MicDmaDesc :=
  let qw0 := (srcPhys &&& descBits32To47) <<< 16
  let qw0 := qw0 ||| (dstPhys &&& descBits32To47)
  let qw0 := qw0 ||| (size &&& BitVec.ofNat 64 descSizeMask)
  let qw0 := qw0 ||| descValid
  let qw0 := if flags &&& dmaPrepInterrupt ≠ 0 then qw0 ||| descIntrEnable else qw0
  { qw0 := qw0
    qw1 := (srcPhys &&& descLowMask) <<< 32 ||| (dstPhys &&& descLowMask) }

/-- The fields of a `dma_async_tx_descriptor` the driver reads; callbacks are known by a number. -/
structure AsyncTx where
  cookie : Int
  callback : Option Nat
  flags : BitVec 32
deriving DecidableEq

/-- One channel, and, not in the driver, every descriptor it wrote, how many cleanup has passed, and
the callbacks it has run. -/
structure MicDmaChan where
  descRing : Nat → MicDmaDesc
  descRingDa : BitVec 64
  txArray : Nat → AsyncTx
  head : Nat
  lastTail : Nat
  cookie : Int
  completedCookie : Int
  programmed : List MicDmaDesc
  cleaned : Nat
  ran : List Nat

def micDmaRingInc (val : Nat) : Nat := (val + 1) % micDmaDescRxSize

def micDmaRingDec (val : Nat) : Nat := if val ≠ 0 then val - 1 else micDmaDescRxSize - 1

def micDmaRingCount (head tail : Nat) : Int :=
  (if head ≥ tail then (tail : Int) + (micDmaDescRxSize - head) else tail - head) - 1

variable (ch : MicDmaChan)

def MicDmaChan.program (d : MicDmaDesc) : MicDmaChan :=
  { ch with
    descRing := update ch.descRing ch.head d
    head := micDmaRingInc ch.head
    programmed := ch.programmed ++ [d] }

def micDmaFenceIntrDesc (flags : BitVec 32) : MicDmaChan :=
  ch.program (micDmaMemcpyDesc ch.descRingDa ch.descRingDa 0 flags)

/-- The loop of `mic_dma_prog_memcpy_desc`; every round moves at least one of the `len` bytes. -/
def programCopies (ch : MicDmaChan) (src dst : BitVec 64) (len : Nat) : Nat → MicDmaChan
  | 0 => ch
  | n + 1 =>
    if len = 0 then ch
    else
      let current := min len maxXferSize
      programCopies (ch.program (micDmaMemcpyDesc src dst (BitVec.ofNat 64 current) 0))
        (src + BitVec.ofNat 64 current) (dst + BitVec.ofNat 64 current) (len - current) n

inductive Errno
  | einval
  | ebusy
deriving DecidableEq

/-- The descriptors a transfer needs, before the result is stored in an `int`. -/
def neededDesc (len : Nat) (flags : BitVec 32) : Nat :=
  len / maxXferSize + (if len % maxXferSize ≠ 0 then 1 else 0) + (if flags ≠ 0 then 1 else 0)

def micDmaProgMemcpyDesc (src dst : BitVec 64) (len : Nat) (flags : BitVec 32) :
    Except Errno MicDmaChan :=
  let numDesc := s32 (neededDesc len flags)
  if numDesc = 0 then .error .einval
  else if micDmaRingCount ch.head ch.lastTail < numDesc then .error .ebusy
  else .ok (programCopies ch src dst len len)

/-- What cleanup does with the transaction slot of a completed descriptor. -/
def MicDmaChan.retire : MicDmaChan :=
  let tx := ch.txArray ch.lastTail
  if tx.cookie ≠ 0 then
    { ch with
      completedCookie := tx.cookie
      txArray := update ch.txArray ch.lastTail { tx with cookie := 0,callback := none }
      ran := ch.ran ++ tx.callback.toList }
  else ch

def MicDmaChan.pass : MicDmaChan :=
  { ch.retire with lastTail := micDmaRingInc ch.lastTail,cleaned := ch.cleaned + 1 }

/-- The loop of `mic_dma_cleanup`; the tail reaches the head within one lap. -/
def cleanLoop (cachedHead : Nat) : Nat → MicDmaChan → MicDmaChan
  | 0,ch => ch
  | n + 1,ch =>
    if ch.lastTail = cachedHead then ch
    else if (ch.descRing ch.lastTail).Valid then ch
    else cleanLoop cachedHead n ch.pass

def micDmaCleanup : MicDmaChan := cleanLoop ch.head micDmaDescRxSize ch

/-- The slot of the final descriptor, which for a transaction with flags is still to be written. -/
def allocateTx (flags : BitVec 32) : Nat × MicDmaChan :=
  let idx := if flags ≠ 0 then ch.head else micDmaRingDec ch.head
  (idx,{ ch with txArray := update ch.txArray idx { ch.txArray idx with flags := flags } })

/-- Program the descriptors and take the transaction slot. -/
def programTx (dmaDest dmaSrc : BitVec 64) (len : Nat) (flags : BitVec 32) :
    Except Errno (Nat × MicDmaChan) :=
  (micDmaProgMemcpyDesc ch dmaSrc dmaDest len flags).map (fun ch => allocateTx ch flags)

/-- After the second attempt: on failure the lock is released and there is no transaction. -/
def retryTx : Except Errno (Nat × MicDmaChan) → Option Nat × MicDmaChan
  | .ok (idx,ch) => (some idx,ch)
  | .error _ => (none,ch)

/-- After the first attempt: a busy ring is cleaned and tried once more. -/
def prepTx (dmaDest dmaSrc : BitVec 64) (len : Nat) (flags : BitVec 32) :
    Except Errno (Nat × MicDmaChan) → Option Nat × MicDmaChan
  | .ok (idx,ch) => (some idx,ch)
  | .error .einval => (none,ch)
  | .error .ebusy =>
    retryTx (micDmaCleanup ch) (programTx (micDmaCleanup ch) dmaDest dmaSrc len flags)

/-- One turn, from taking the lock to releasing it or returning with it; the next comes after others
have run. -/
def micDmaPrepMemcpyLock (dmaDest dmaSrc : BitVec 64) (len : Nat)
    (flags : BitVec 32) : Option Nat × MicDmaChan :=
  prepTx ch dmaDest dmaSrc len flags (programTx ch dmaDest dmaSrc len flags)

def dmaCookieAssign (cookie : Int) : Int :=
  let cookie := s32 (cookie + 1)
  if cookie < dmaMinCookie then dmaMinCookie else cookie

def micDmaTxSubmitUnlock (idx : Nat) : Int × MicDmaChan :=
  let cookie := dmaCookieAssign ch.cookie
  let tx : AsyncTx := { ch.txArray idx with cookie := cookie }
  let ch := { ch with cookie := cookie,txArray := update ch.txArray idx tx }
  if tx.flags ≠ 0 then
    let ch := micDmaFenceIntrDesc ch tx.flags
    (cookie,{ ch with txArray := update ch.txArray idx { tx with flags := 0 } })
  else (cookie,ch)

def dmaAsyncIsComplete (cookie lastComplete lastUsed : Int) : Bool :=
  if lastComplete ≤ lastUsed then decide (cookie ≤ lastComplete ∨ cookie > lastUsed)
  else decide (cookie ≤ lastComplete ∧ cookie > lastUsed)

def dmaCookieStatus (cookie : Int) : Bool := dmaAsyncIsComplete cookie ch.completedCookie ch.cookie

/-- A submitted transaction: the position of its final descriptor, its cookie, flags and
callback. -/
structure Submission where
  last : Nat
  cookie : Int
  flags : BitVec 32
  callback : Option Nat

/-- A channel with its users and its engine: the slot a preparer holds the lock for, the descriptor
executed next, how many were, and what was submitted. -/
structure Channel where
  ch : MicDmaChan
  prepared : Option Nat
  next : Nat
  completed : Nat
  submitted : List Submission

inductive Act
  | prep (dmaDest dmaSrc : BitVec 64) (len : Nat) (flags : BitVec 32)
  | submit (callback : Option Nat)
  | complete
  | cleanup

/-- The owner of the prepared transaction may set its callback before it submits. -/
def setCallback (idx : Nat) : Option Nat → MicDmaChan
  | none => ch
  | some f =>
    { ch with txArray := update ch.txArray idx { ch.txArray idx with callback := some f } }

def Channel.submit (s : Channel) (idx : Nat) (callback : Option Nat) : Channel :=
  let flags := (s.ch.txArray idx).flags
  let (cookie,ch) := micDmaTxSubmitUnlock (setCallback s.ch idx callback) idx
  { s with
    ch := ch
    prepared := none
    submitted := s.submitted ++ [⟨ch.programmed.length - 1,cookie,flags,callback⟩] }

/-- The engine executes the descriptor in a slot and writes it back. -/
def MicDmaChan.execute (i : Nat) : MicDmaChan :=
  { ch with descRing := update ch.descRing i (ch.descRing i).done }

/-- Preparing takes the lock that submitting releases; cleanup does not need it. -/
def Channel.act (s : Channel) : Act → Option Channel
  | .prep dmaDest dmaSrc len flags =>
    if s.prepared.isSome then none
    else
      let result := micDmaPrepMemcpyLock s.ch dmaDest dmaSrc len flags
      some { s with ch := result.2,prepared := result.1 }
  | .submit callback => s.prepared.map (fun idx => s.submit idx callback)
  | .complete =>
    if (s.ch.descRing s.next).Valid then
      some { s with
        ch := s.ch.execute s.next
        next := micDmaRingInc s.next
        completed := s.completed + 1 }
    else none
  | .cleanup => some { s with ch := micDmaCleanup s.ch }

/-- A channel after `mic_dma_chan_setup`: zeroed memory, nothing in flight. -/
def Channel.init (descRingDa : BitVec 64) : Channel :=
  { ch :=
      { descRing := fun _ => ⟨0,0⟩
        descRingDa := descRingDa
        txArray := fun _ => ⟨0,none,0⟩
        head := 0
        lastTail := 0
        cookie := dmaMinCookie
        completedCookie := dmaMinCookie
        programmed := []
        cleaned := 0
        ran := [] }
    prepared := none
    next := 0
    completed := 0
    submitted := [] }

end Mpss.X200.Dma
