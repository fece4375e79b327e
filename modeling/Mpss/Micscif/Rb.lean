import Mpss.Scif.Ring

namespace Mpss.Micscif.Rb
open Scif.Ring

structure MicscifRb extends ScifRb where
  oldCurrentReadOffset : UInt32
  oldCurrentWriteOffset : UInt32

variable (rb : MicscifRb) (sh : Shared)

/-- Nothing where the source has a `BUG_ON`: the size is no power of two. -/
def micscifRbInit (rbBase : Nat) (size : UInt32) : Option MicscifRb :=
  if size &&& (size - 1) ≠ 0 then none
  else some { rb with
    rbBase := rbBase
    size := size
    currentReadOffset := sh.readPtr
    currentWriteOffset := sh.writePtr }

/-- The space, an `int`; the writer's cached read offset is refreshed. -/
def micscifRbSpace : Int32 × MicscifRb :=
  let rb := { rb with
    oldCurrentReadOffset := rb.currentReadOffset
    currentReadOffset := sh.readPtr }
  ((circSpace rb.currentWriteOffset rb.currentReadOffset rb.size).toInt32,rb)

variable (msg : Nat → UInt8) (size : UInt32)

/-- The body of `micscif_rb_write` behind the test for space. -/
def putMessage : MicscifRb × Shared :=
  ({ rb with
      oldCurrentWriteOffset := rb.currentWriteOffset
      currentWriteOffset := (rb.currentWriteOffset + size) &&& (rb.size - 1) },
    { sh with
      mem := memcpyTorb rb.toScifRb sh.mem (rb.rbBase + rb.currentWriteOffset.toNat) msg size })

def micscifRbWrite : Int × MicscifRb × Shared :=
  let r := micscifRbSpace rb sh
  if r.1.toUInt32 < size then (-enomem,r.2,sh)
  else (0,putMessage r.2 sh msg size)

def micscifRbCommit : Shared := { sh with writePtr := rb.currentWriteOffset }

/-- The cached write offset is refreshed only when fewer bytes than asked for are known. -/
def refresh : MicscifRb :=
  if circCnt rb.currentWriteOffset rb.currentReadOffset rb.size < size then
    { rb with
      oldCurrentWriteOffset := rb.currentWriteOffset
      currentWriteOffset := sh.writePtr }
  else rb

def micscifRbCount : UInt32 × MicscifRb :=
  let rb := refresh rb sh size
  (circCnt rb.currentWriteOffset rb.currentReadOffset rb.size,rb)

def micscifRbGet : Option Nat × MicscifRb :=
  let r := micscifRbCount rb sh size
  (if r.1 ≥ size then some (r.2.rbBase + r.2.currentReadOffset.toNat) else none,r.2)

def takeMessage : Option Nat → Int32 × (Nat → UInt8) × MicscifRb
  | some header =>
    let nextCmdOffset := (rb.currentReadOffset + size) &&& (rb.size - 1)
    let rb' := { rb with
      oldCurrentReadOffset := rb.currentReadOffset
      currentReadOffset := nextCmdOffset }
    (size.toInt32,memcpyFromrb rb'.toScifRb sh.mem header msg size,rb')
  | none => (0,msg,rb)

def micscifRbGetNext : Int32 × (Nat → UInt8) × MicscifRb :=
  let r := micscifRbGet rb sh size
  takeMessage r.2 sh msg size r.1

def micscifRbUpdateReadPtr : Shared := { sh with readPtr := rb.currentReadOffset }

/-- One writer and one reader of a ring, each with its own context of type `β`. -/
structure Pair (β : Type) where
  producer : β
  consumer : β
  shared : Shared

inductive Call
  | write (msg : Nat → UInt8) (size : UInt32)
  | commit
  | space
  | getNext (msg : Nat → UInt8) (size : UInt32)
  | updateReadPtr
  | count (size : UInt32)

/-- What the caller gets back; an `int` is read as the unsigned number it is compared as. -/
inductive Reply
  | written (ret : Int)
  | committed
  | space (n : UInt32)
  | got (ret : UInt32) (msg : Nat → UInt8)
  | updated
  | counted (n : UInt32)

def cachingStep (s : Pair MicscifRb) : Call → Reply × Pair MicscifRb
  | .write msg size =>
    let r := micscifRbWrite s.producer s.shared msg size
    (.written r.1,{ s with producer := r.2.1,shared := r.2.2 })
  | .commit => (.committed,{ s with shared := micscifRbCommit s.producer s.shared })
  | .space =>
    let r := micscifRbSpace s.producer s.shared
    (.space r.1.toUInt32,{ s with producer := r.2 })
  | .getNext msg size =>
    let r := micscifRbGetNext s.consumer s.shared msg size
    (.got r.1.toUInt32 r.2.1,{ s with consumer := r.2.2 })
  | .updateReadPtr => (.updated,{ s with shared := micscifRbUpdateReadPtr s.consumer s.shared })
  | .count size =>
    let r := micscifRbCount s.consumer s.shared size
    (.counted r.1,{ s with consumer := r.2 })

def plainStep (s : Pair ScifRb) : Call → Reply × Pair ScifRb
  | .write msg size =>
    let r := scifRbWrite s.producer s.shared msg size
    (.written r.1,{ s with producer := r.2.1,shared := r.2.2 })
  | .commit => (.committed,{ s with shared := scifRbCommit s.producer s.shared })
  | .space => (.space (scifRbSpace s.producer s.shared),s)
  | .getNext msg size =>
    let r := scifRbGetNext s.consumer s.shared msg size
    (.got r.1 r.2.1,{ s with consumer := r.2.2 })
  | .updateReadPtr => (.updated,{ s with shared := scifRbUpdateReadPtr s.consumer s.shared })
  | .count _ => (.counted (scifRbCount s.consumer s.shared),s)

def replies (step : σ → Call → Reply × σ) : σ → List Call → List (Call × Reply)
  | _,[] => []
  | s,c :: cs => (c,(step s c).1) :: replies step (step s c).2 cs

end Mpss.Micscif.Rb
