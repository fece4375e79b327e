import Mathlib.Algebra.Order.Ring.Int

namespace Mpss.Mpssconfig.Miclist
open Function

abbrev Name := List Char

def mic : Name := ['m','i','c']

def decimal : Int → Name
  | .ofNat n => Nat.toDigits 10 n
  | .negSucc n => '-' :: Nat.toDigits 10 (n + 1)

def micName (id : Int) : Name := mic ++ decimal id

def confName (id : Int) : Name := micName id ++ ['.','c','o','n','f']

def isSpace (c : Char) : Bool := c.isWhitespace || c.toNat = 11 || c.toNat = 12

def scanDigits (s : Name) : Option Nat :=
  match s.takeWhile Char.isDigit with
  | [] => none
  | ds => some (Nat.ofDigitChars 10 ds 0)

def scanLong (s : Name) : Option Int :=
  match s.dropWhile isSpace with
  | [] => none
  | c :: s =>
    if c = '-' then (scanDigits s).map (fun n => -Int.ofNat n)
    else if c = '+' then (scanDigits s).map Int.ofNat
    else (scanDigits (c :: s)).map Int.ofNat

/-- The conversion of the C library: the low 32 bits of a `long`, which is at its limit when the
number is beyond. -/
def toInt (n : Int) : Int := (max (-2 ^ 63) (min n (2 ^ 63 - 1))).bmod (2 ^ 32)

def scanInt (s : Name) : Option Int := (scanLong s).map toInt

/-- What `sscanf` converts for `mic%d` and `mic%d.conf`: what is behind the conversion does not
change its count. -/
def scanMic (name : Name) : Option Int := if name.take 3 = mic then scanInt (name.drop 3) else none

def sysfsId (name : Name) : Option Int := if name.take 3 ≠ mic then none else scanMic name

structure MicInfo where
  id : Int
  name : Name
  present : Bool
deriving DecidableEq

/-- A `struct mic_info` in memory, with the address of the next one or zero. -/
structure Node where
  info : MicInfo
  next : Nat
deriving DecidableEq

/-- The memory of the process: the structures, the first address never used, and how often `malloc`
will succeed. -/
structure Heap where
  cell : Nat → Option Node
  brk : Nat
  left : Nat

variable (h : Heap)

def Heap.store (p : Nat) (n : Node) : Heap := { h with cell := update h.cell p (some n) }

def malloc : Option (Nat × Heap) :=
  if h.left = 0 then none else some (h.brk,{ h with brk := h.brk + 1,left := h.left - 1 })

def zero : MicInfo := ⟨0,[],false⟩

def Heap.enter : Heap := ({ h with brk := h.brk + 1 } : Heap).store h.brk ⟨zero,0⟩

/-- A local variable does not outlive its function. -/
def Heap.leave (p : Nat) : Heap := { h with cell := update h.cell p none }

def seekPresent (id : Int) : Nat → Nat → Option Nat
  | 0,_ => none
  | n + 1,mic => do
    let node ← h.cell mic
    if node.info.id < id ∧ node.next ≠ 0 then
      let after ← h.cell node.next
      if after.info.id < id then seekPresent id n node.next else return mic
    else return mic

structure Present where
  heap : Heap
  firstmic : Nat
  mic : Nat
  cnt : Nat

def addPresent (s : Present) (name : Name) : Option Present :=
  match sysfsId name with
  | none => some s
  | some id => do
    let mic ← seekPresent s.heap id s.heap.brk s.firstmic
    let node ← s.heap.cell mic
    match malloc s.heap with
    | none => return { s with mic := mic }
    | some (tmp,h) =>
      let info := ⟨id,name,true⟩
      if node.info.id > id then
        return { heap := h.store tmp ⟨info,mic⟩,firstmic := tmp,mic := tmp,cnt := s.cnt + 1 }
      else
        return { heap := (h.store tmp ⟨info,node.next⟩).store mic { node with next := tmp },
                 firstmic := s.firstmic,mic := tmp,cnt := s.cnt + 1 }

/-- The heap, the pointer returned and the count; `sysfs` is none when the directory cannot be
opened. -/
def getMiclistPresent (sysfs : Option (List Name)) (h : Heap) : Option (Heap × Nat × Nat) :=
  match sysfs with
  | none => some (h,0,0)
  | some names => do
    let miclist := h.brk
    let s ← names.foldlM addPresent ⟨h.enter,miclist,miclist,0⟩
    return (s.heap.leave miclist,s.mic,s.cnt)

/-- The search of `_add_miclist_not_present`: the place of an id, and whether it is not there. -/
def seekNotPresent (id : Int) : Nat → Nat → Option (Nat × Bool)
  | 0,_ => none
  | n + 1,mic => do
    let node ← h.cell mic
    if node.next = 0 then return (mic,true)
    else
      let after ← h.cell node.next
      if after.info.id > id then return (mic,true)
      else if after.info.id = id then return (mic,false)
      else seekNotPresent id n node.next

def addNotPresent (miclist : Nat) (s : Heap × Nat) (name : Name) : Option (Heap × Nat) :=
  match scanMic name with
  | none => some s
  | some id => do
    let spot ← seekNotPresent s.1 id s.1.brk miclist
    if spot.2 then
      let node ← s.1.cell spot.1
      match malloc s.1 with
      | none => return s
      | some (tmp,h) =>
        return ((h.store tmp ⟨⟨id,micName id,false⟩,node.next⟩).store spot.1
          { node with next := tmp },s.2 + 1)
    else return s

def addMiclistNotPresent (conf : Option (List Name)) (miclist : Nat) (h : Heap) (cnt : Nat) :
    Option (Heap × Nat × Nat) := do
  let s ← (conf.getD []).foldlM (addNotPresent miclist) (h,cnt)
  let node ← s.1.cell miclist
  return (s.1,node.next,s.2)

def mpssGetMiclist (sysfs conf : Option (List Name)) (h : Heap) : Option (Heap × Nat × Nat) := do
  let miclist := h.brk
  let r ← getMiclistPresent sysfs h.enter
  let r ← addMiclistNotPresent conf miclist (r.1.store miclist ⟨zero,r.2.1⟩) r.2.2
  return (r.1.leave miclist,r.2)

def readList : Nat → Nat → Option (List MicInfo)
  | _,0 => some []
  | 0,_ + 1 => none
  | n + 1,p + 1 => do
    let node ← h.cell (p + 1)
    let rest ← readList n node.next
    return node.info :: rest

end Mpss.Mpssconfig.Miclist
