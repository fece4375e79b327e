import Mpss.Library.Rows

namespace Mpss.X200.Alut
open Library.Rows

def alutEntryCount : Nat := 256

def alutEntrySize : Nat := 2 ^ 31

def micAlutSize : Nat := alutEntryCount * alutEntrySize

def micAperSize : Nat := 9 * alutEntrySize

/-- The value an `int` holds after counting to `n`. -/
def toInt (n : Nat) : Int :=
  if n % 2 ^ 32 < 2 ^ 31 then (n % 2 ^ 32 : Nat) else (n % 2 ^ 32 : Nat) - 2 ^ 32

abbrev MicAlut := Slot

structure MicAlutInfo where
  entry : Nat → MicAlut
  refCount : Int
  mapCount : Int
  unmapCount : Int

variable (pa : Nat)

/-- The table index is a byte. -/
def micSysAddrToAlut : Nat := pa / alutEntrySize % 2 ^ 8

def micAlutToPa (index : Nat) : Nat := index % 2 ^ 8 * alutEntrySize

def micAlutOffset : Nat := pa % alutEntrySize

def micAlutAlignLow : Nat := pa - pa % alutEntrySize

def micAlutAlignHigh : Nat := (pa + (alutEntrySize - 1)) / alutEntrySize * alutEntrySize

def setEntry (e : Nat → MicAlut) (i : Nat) (a : MicAlut) : Nat → MicAlut :=
  fun j => if j = i then a else e j

def micAddAlutEntry (e : Nat → MicAlut) (i addr : Nat) : Nat → (Nat → MicAlut)
  | 0 => e
  | n + 1 =>
    let a := e i
    let a := if a.refCount = 0 ∧ a.dmaAddr ≠ addr then { a with dmaAddr := addr } else a
    micAddAlutEntry (setEntry e i { a with refCount := a.refCount + 1 }) (i + 1)
      (addr + alutEntrySize) n

variable (alut : MicAlutInfo)

/-- The MIC address of the entries found by the two loops, or nothing where the source returns 0. -/
def micAlutOp (dmaAddr : Nat) (entries : Int) : Option Nat × MicAlutInfo :=
  match findEntries alutEntrySize alut.entry entries alutEntryCount dmaAddr with
  | none => (none,alut)
  | some i =>
    let spt := ((i : Int) - entries + 1).toNat
    (some (micAlutToPa spt),
      { entry := micAddAlutEntry alut.entry spt dmaAddr entries.toNat
        refCount := alut.refCount + 1
        mapCount := alut.mapCount + 1
        unmapCount := alut.unmapCount })

theorem align_high_gt (a : Nat) : a < micAlutAlignHigh (a + 1) := by
  unfold micAlutAlignHigh alutEntrySize
  omega

def countEntries (start last : Nat) : Nat :=
  if start < last then countEntries (micAlutAlignHigh (start + 1)) last + 1 else 0
termination_by last - start
decreasing_by
  have := align_high_gt start
  omega

/-- The counter and the result are an `int`. -/
def micGetAlutRefCount (dmaAddr size : Nat) : Int := toInt (countEntries dmaAddr (dmaAddr + size))

def micToDmaAddr (micAddr : Nat) : Nat :=
  (alut.entry (micSysAddrToAlut micAddr)).dmaAddr + micAlutOffset micAddr

/-- The address returned when entries were found, and the table afterwards. -/
def micMap (dmaAddr size : Nat) : Option Nat × MicAlutInfo :=
  if size = 0 then (none,alut)
  else
    let (micAddr,alut') := micAlutOp alut (micAlutAlignLow dmaAddr) (micGetAlutRefCount dmaAddr size)
    (micAddr.map (· + micAlutOffset dmaAddr),alut')

/-- What `mic_map` returns: without entries the offset is added to 0. -/
def micMapReturned (dmaAddr size : Nat) : Nat :=
  (micMap alut dmaAddr size).1.getD (if size = 0 then 0 else micAlutOffset dmaAddr)

def micMapError (micAddr : Nat) : Bool := micAddr = 0

def dropEntries (e : Nat → MicAlut) (i : Nat) : Nat → (Nat → MicAlut)
  | 0 => e
  | n + 1 => dropEntries (setEntry e i { e i with refCount := (e i).refCount - 1 }) (i + 1) n

def micUnmap (micAddr size : Nat) : MicAlutInfo :=
  if size = 0 then alut
  else
    { entry := dropEntries alut.entry (micSysAddrToAlut micAddr) (micGetAlutRefCount micAddr size).toNat
      refCount := alut.refCount - 1
      mapCount := alut.mapCount
      unmapCount := alut.unmapCount + 1 }

/-- `identity_map_entries`; the size before it is computed on 64 bits and may wrap. -/
def identityMapEntries (peerCount netPeerCount : Nat) : Nat :=
  (((micAlutSize : Int) - peerCount * micAperSize - netPeerCount * alutEntrySize) % 2 ^ 64).toNat /
    alutEntrySize

def initEntry (identity i : Nat) : MicAlut :=
  if i < identity then { dmaAddr := i * alutEntrySize,refCount := 1 }
  else { dmaAddr := 0,refCount := 0 }

def micAlutInit (peerCount netPeerCount : Nat) : MicAlutInfo :=
  let identity := identityMapEntries peerCount netPeerCount
  { entry := initEntry identity
    refCount := min identity alutEntryCount
    mapCount := 0
    unmapCount := 0 }

structure Mapping where
  dmaAddr : Nat
  size : Nat
  micAddr : Nat
deriving DecidableEq

structure Table where
  alut : MicAlutInfo
  live : List Mapping

inductive Act
  | map (dmaAddr size : Nat)
  | unmap (m : Mapping)

/-- Ranges are not empty. One that reaches into the last entry of the address space makes the count
wrap and never end; only a live mapping is unmapped. -/
def Table.act (s : Table) : Act → Option Table
  | .map dmaAddr size =>
    if 0 < size ∧ dmaAddr + size + alutEntrySize ≤ 2 ^ 64 then
      match micMap s.alut dmaAddr size with
      | (some micAddr,alut) => some { alut := alut,live := ⟨dmaAddr,size,micAddr⟩ :: s.live }
      | (none,alut) => some { s with alut := alut }
    else none
  | .unmap m =>
    if m ∈ s.live then some { alut := micUnmap s.alut m.micAddr m.size,live := s.live.erase m }
    else none

def Table.init (peerCount netPeerCount : Nat) : Table :=
  { alut := micAlutInit peerCount netPeerCount,live := [] }

end Mpss.X200.Alut
