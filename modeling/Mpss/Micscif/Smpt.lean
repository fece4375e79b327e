import Mpss.Library.Rows

namespace Mpss.Micscif.Smpt
open Library.Rows Function

def numSmptEntriesInUse : Nat := 32

def micSystemPageSize : Nat := 2 ^ 34

def micSystemBase : Nat := 0x8000000000

def maxSystemAddr : Nat := micSystemBase + numSmptEntriesInUse * micSystemPageSize - 1

def s64 (n : Int) : Int := n.bmod (2 ^ 64)

abbrev MicSmpt := Slot

inductive Family
  | unknown
  | abr
  | knc
deriving DecidableEq

/-- The table, the SMPT registers and the `SMPT_SET` messages sent: an address and an index. -/
structure MicCtx where
  family : Family
  micSmpt : Nat → MicSmpt
  sbox : Nat → Nat
  sent : List (Nat × Nat)

def isMicSystemAddr (addr : Nat) : Prop := micSystemBase ≤ addr ∧ addr ≤ maxSystemAddr
deriving Decidable

def hostmicPaToSmpt (hostmicPa : Nat) : Nat := (hostmicPa - micSystemBase) / micSystemPageSize

def smptToMicPa (index : Nat) : Nat := micSystemBase + index * micSystemPageSize

def smptOffset (pa : Nat) : Nat := pa % micSystemPageSize

def smptAlignLow (pa : Nat) : Nat := pa - pa % micSystemPageSize

def smptAlignHigh (pa : Nat) : Nat :=
  (pa + (micSystemPageSize - 1)) / micSystemPageSize * micSystemPageSize

def buildSmpt (hostAddr : Nat) : Nat := hostAddr * 4 % 2 ^ 32

def micSmptInit (family : Family) (sbox : Nat → Nat) : MicCtx :=
  { family := family
    micSmpt := fun i => ⟨i * micSystemPageSize,0⟩
    sbox := if family = .knc then fun i => buildSmpt
      (i * micSystemPageSize / micSystemPageSize) else sbox
    sent := [] }

variable (ctx : MicCtx)

def setAddr (i addr : Nat) : MicCtx :=
  let smpt := update ctx.micSmpt i { ctx.micSmpt i with dmaAddr := addr }
  if ctx.family = .abr then { ctx with micSmpt := smpt,sent := ctx.sent ++ [(addr,i)] }
  else
    { ctx with
      micSmpt := smpt
      sbox := update ctx.sbox i (buildSmpt (addr / micSystemPageSize)) }

def addEntry (i addr ref : Nat) : MicCtx :=
  let ctx :=
    if (ctx.micSmpt i).refCount = 0 ∧ (ctx.micSmpt i).dmaAddr ≠ addr then setAddr ctx i addr else ctx
  { ctx with
    micSmpt := update ctx.micSmpt i
      { ctx.micSmpt i with refCount := s64 ((ctx.micSmpt i).refCount + ref) } }

def addSmptEntry (ctx : MicCtx) (i addr : Nat) : List Nat → MicCtx
  | [] => ctx
  | ref :: refs => addSmptEntry (addEntry ctx i addr ref) (i + 1) (addr + micSystemPageSize) refs

/-- Zero is the failure, also without a reference of power management. -/
def smptOp (pm : Bool) (ctx : MicCtx) (dmaAddr : Nat) (refs : List Nat) : Nat × MicCtx :=
  if !pm then (0,ctx)
  else
    match findEntries micSystemPageSize ctx.micSmpt refs.length numSmptEntriesInUse dmaAddr with
    | none => (0,ctx)
    | some i =>
      let spt := i + 1 - refs.length
      (smptToMicPa spt,addSmptEntry ctx spt dmaAddr refs)

theorem align_high_gt (a : Nat) : a < smptAlignHigh (a + 1) := by
  unfold smptAlignHigh micSystemPageSize
  omega

/-- The bytes of a range in each entry it needs. -/
def getSmptRefCount (start last : Nat) : List Nat :=
  if start < last then
    (min (smptAlignHigh (start + 1)) last - start) :: getSmptRefCount (smptAlignHigh (start + 1)) last
  else []
termination_by last - start
decreasing_by
  have := align_high_gt start
  omega

def micMap (pm : Bool) (ctx : MicCtx) (dmaAddr size : Nat) : Nat × MicCtx :=
  if size = 0 then (0,ctx)
  else
    let r := smptOp pm ctx (smptAlignLow dmaAddr) (getSmptRefCount dmaAddr (dmaAddr + size))
    if r.1 = 0 then r else (r.1 + smptOffset dmaAddr,r.2)

def dropEntries (e : Nat → MicSmpt) (i : Nat) : List Nat → (Nat → MicSmpt)
  | [] => e
  | ref :: refs =>
    dropEntries (update e i { e i with refCount := s64 ((e i).refCount - ref) }) (i + 1) refs

def micUnmap (micAddr size : Nat) : MicCtx :=
  if size = 0 then ctx
  else if ¬ isMicSystemAddr micAddr then ctx
  else
    { ctx with
      micSmpt := dropEntries ctx.micSmpt (hostmicPaToSmpt micAddr)
        (getSmptRefCount micAddr (micAddr + size)) }

def micToDmaAddr (micAddr : Nat) : Nat :=
  if ¬ isMicSystemAddr micAddr then 0
  else (ctx.micSmpt (hostmicPaToSmpt micAddr)).dmaAddr + smptOffset micAddr

structure Mapping where
  dmaAddr : Nat
  size : Nat
  micAddr : Nat
deriving DecidableEq

structure Table where
  ctx : MicCtx
  live : List Mapping

inductive Act
  | map (pm : Bool) (dmaAddr size : Nat)
  | unmap (m : Mapping)

def pages (addr size : Nat) : Nat :=
  (addr + size - 1) / micSystemPageSize - addr / micSystemPageSize + 1

/-- A range of 1 to 32 pages. One that reaches into the last page of the address space makes the
count wrap. -/
def Mappable (dmaAddr size : Nat) : Prop :=
  0 < size ∧ pages dmaAddr size ≤ numSmptEntriesInUse ∧ dmaAddr + size + micSystemPageSize ≤ 2 ^ 64
deriving Decidable

def mapped (s : Table) (dmaAddr size : Nat) (r : Nat × MicCtx) : Table :=
  { ctx := r.2
    live := if r.1 = 0 then s.live else ⟨dmaAddr,size,r.1⟩ :: s.live }

def Table.act (s : Table) : Act → Option Table
  | .map pm dmaAddr size =>
    if Mappable dmaAddr size then some (mapped s dmaAddr size (micMap pm s.ctx dmaAddr size)) else none
  | .unmap m =>
    if m ∈ s.live then some { ctx := micUnmap s.ctx m.micAddr m.size,live := s.live.erase m }
    else none

def Table.init (family : Family) (sbox : Nat → Nat) : Table :=
  { ctx := micSmptInit family sbox,live := [] }

end Mpss.Micscif.Smpt
