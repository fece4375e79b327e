import Mpss.Library.Bytes

namespace Mpss.Scif.Ring
open Library.Bytes

/-- The part of the ring both sides see: the message area and the two published
offsets `*read_ptr` and `*write_ptr`. -/
structure Shared where
  mem : Memory UInt8
  readPtr : UInt32
  writePtr : UInt32

/-- Each side keeps its own copy of the structure, with its cached offsets. -/
structure ScifRb where
  rbBase : Nat
  size : UInt32
  currentReadOffset : UInt32
  currentWriteOffset : UInt32

def enomem : Int := 12

def circCnt (head tail size : UInt32) : UInt32 := (head - tail) &&& (size - 1)

def circSpace (head tail size : UInt32) : UInt32 := circCnt tail (head + 1) size

def scifRbRingCnt (head tail size : UInt32) : UInt32 := circCnt head tail size

def scifRbRingSpace (head tail size : UInt32) : UInt32 := circSpace head tail size

def scifRbInit (sh : Shared) (rbBase : Nat) (size : UInt8) : ScifRb where
  rbBase := rbBase
  size := 1 <<< size.toUInt32
  currentReadOffset := sh.readPtr
  currentWriteOffset := sh.writePtr

variable (rb : ScifRb)

def memcpyTorb (m : Memory UInt8) (header : Nat) (msg : Nat → UInt8) (size : UInt32) : Memory UInt8 :=
  if header + size.toNat ≥ rb.rbBase + rb.size.toNat then
    let size1 := UInt32.ofNat (rb.rbBase + rb.size.toNat - header)
    let size2 := size - size1
    let m := blit m header msg size1.toNat
    blit m rb.rbBase (fun i => msg (size1.toNat + i)) size2.toNat
  else blit m header msg size.toNat

/-- The addresses `memcpy_torb` stores to, in the order of the message's bytes. -/
def torbCells (header : Nat) (size : UInt32) : List Nat :=
  if header + size.toNat ≥ rb.rbBase + rb.size.toNat then
    let size1 := UInt32.ofNat (rb.rbBase + rb.size.toNat - header)
    let size2 := size - size1
    (List.range size1.toNat).map (header + ·) ++ (List.range size2.toNat).map (rb.rbBase + ·)
  else (List.range size.toNat).map (header + ·)

def memcpyFromrb (m : Memory UInt8) (header : Nat) (msg : Nat → UInt8) (size : UInt32) : Nat → UInt8 :=
  if header + size.toNat ≥ rb.rbBase + rb.size.toNat then
    let size1 := UInt32.ofNat (rb.rbBase + rb.size.toNat - header)
    let size2 := size - size1
    let msg := blit msg 0 (fun i => m (header + i)) size1.toNat
    blit msg size1.toNat (fun i => m (rb.rbBase + i)) size2.toNat
  else blit msg 0 (fun i => m (header + i)) size.toNat

def scifRbSpace (sh : Shared) : UInt32 := scifRbRingSpace rb.currentWriteOffset sh.readPtr rb.size

def scifRbCount (sh : Shared) : UInt32 := scifRbRingCnt sh.writePtr rb.currentReadOffset rb.size

/-- The shared write offset stays behind until `scif_rb_commit`. -/
def scifRbWrite (sh : Shared) (msg : Nat → UInt8) (size : UInt32) : Int × ScifRb × Shared :=
  if scifRbSpace rb sh < size then (-enomem,rb,sh)
  else
    let header := rb.rbBase + rb.currentWriteOffset.toNat
    let mem := memcpyTorb rb sh.mem header msg size
    let rb' := { rb with currentWriteOffset := (rb.currentWriteOffset + size) &&& (rb.size - 1) }
    (0,rb',{ sh with mem := mem })

def scifRbCommit (sh : Shared) : Shared := { sh with writePtr := rb.currentWriteOffset }

/-- The position of the next message, or nothing when fewer bytes are visible. -/
def scifRbGet (sh : Shared) (size : UInt32) : Option Nat :=
  if scifRbCount rb sh ≥ size then some (rb.rbBase + rb.currentReadOffset.toNat) else none

def scifRbGetNext (sh : Shared) (msg : Nat → UInt8) (size : UInt32) : UInt32 ×
    (Nat → UInt8) × ScifRb :=
  match scifRbGet rb sh size with
  | some header =>
    let nextCmdOffset := (rb.currentReadOffset + size) &&& (rb.size - 1)
    let rb' := { rb with currentReadOffset := nextCmdOffset }
    (size,memcpyFromrb rb' sh.mem header msg size,rb')
  | none => (0,msg,rb)

def scifRbUpdateReadPtr (sh : Shared) : Shared := { sh with readPtr := rb.currentReadOffset }

/-- One writer and one reader of the same ring. -/
structure System where
  producer : ScifRb
  consumer : ScifRb
  shared : Shared

def System.init (mem : Memory UInt8) (rbBase : Nat) (size : UInt8) : System :=
  let sh : Shared := { mem := mem,readPtr := 0,writePtr := 0 }
  { producer := scifRbInit sh rbBase size,consumer := scifRbInit sh rbBase size,shared := sh }

/-- A call of either side, with the caller's buffer. -/
inductive Call
  | write (msg : Nat → UInt8) (size : UInt32)
  | commit
  | getNext (msg : Nat → UInt8) (size : UInt32)
  | updateReadPtr

inductive Reply
  | written (ret : Int)
  | committed
  | got (ret : UInt32) (msg : Nat → UInt8)
  | updated

def System.step (s : System) : Call → Reply × System
  | .write msg size =>
    let (ret,rb,sh) := scifRbWrite s.producer s.shared msg size
    (.written ret,{ s with producer := rb,shared := sh })
  | .commit => (.committed,{ s with shared := scifRbCommit s.producer s.shared })
  | .getNext msg size =>
    let (ret,msg',rb) := scifRbGetNext s.consumer s.shared msg size
    (.got ret msg',{ s with consumer := rb })
  | .updateReadPtr => (.updated,{ s with shared := scifRbUpdateReadPtr s.consumer s.shared })

def System.run (s : System) : List Call → List (Call × Reply) × System
  | [] => ([],s)
  | c :: cs =>
    let (r,s') := s.step c
    let (rs,t) := s'.run cs
    ((c,r) :: rs,t)

end Mpss.Scif.Ring
