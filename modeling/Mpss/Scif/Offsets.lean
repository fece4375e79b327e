import Mpss.Scif.Window

namespace Mpss.Scif.Offsets
open Scif.Window

def scifMapFixed : Nat := 0x10

def scifMapKernel : Nat := 0x20

def toU64 (n : Int) : Int := n % 2 ^ 64

structure Iova where
  pfnLo : Int
  pfnHi : Int
deriving DecidableEq

def isRangeOverlap (iova : Iova) (pfnLo pfnHi : Int) : Bool := pfnLo ≤ iova.pfnHi ∧ iova.pfnLo ≤ pfnHi

variable (iovad : List Iova)

/-- `mem` says whether `alloc_iova_mem` succeeds. -/
def reserveIovaExclusive (pfnLo pfnHi : Int) (mem : Bool) : Option Iova :=
  if iovad.any (fun iova => isRangeOverlap iova pfnLo pfnHi) then none
  else if mem then some ⟨pfnLo,pfnHi⟩
  else none

def freeIova (pfn : Int) : List Iova :=
  iovad.eraseP (fun iova => iova.pfnLo ≤ pfn ∧ pfn ≤ iova.pfnHi)

/-- What a registration gets from outside: the frame that `alloc_iova` found, memory, the end of the
wait for an offset, and the peer's device. -/
structure Env where
  alloc : Option Int
  mem : Bool
  expired : Bool
  peerDev : Bool
  create : Bool

/-- The claimed range; its `pfnLo` is the offset in pages. `numPages` is an `int`. -/
def scifGetWindowOffset (flags : Nat) (offset numPages : Int) (env : Env) : Except Int Iova :=
  if flags &&& scifMapFixed ≠ 0 then
    let pageIndex := offset / pageSize
    match reserveIovaExclusive iovad pageIndex (toU64 (pageIndex + numPages - 1)) env.mem with
    | some iova => .ok iova
    | none => .error (-eaddrinuse)
  else
    match env.alloc with
    | some pfn => .ok ⟨pfn,pfn + toU64 numPages - 1⟩
    | none => .error (-enomem)

/-- The fields of a self window that its offset depends on. -/
structure SelfWindow where
  id : Nat
  offset : Int
  nrPages : Int
  unregState : UnregState
  listed : Bool
  offsetFreed : Bool
deriving DecidableEq

def SelfWindow.endOffset (w : SelfWindow) : Int := w.offset + w.nrPages * pageSize

/-- The windows that are created and not destroyed; those with `listed` are on `reg_list`. -/
structure Space where
  iovad : List Iova
  windows : List SelfWindow
  nextId : Nat

def Space.init : Space := { iovad := [],windows := [],nextId := 0 }

/-- How far a registration came: an error, another try for the offset, or a new window. -/
inductive Outcome
  | failed (err : Int)
  | again
  | created
deriving DecidableEq

variable (s : Space)

/-- The new window with its range, or the range given back. -/
def scifCreateWindow (iova : Iova) (nrPages : Int) (ok : Bool) : Outcome × Space :=
  let offset := iova.pfnLo * pageSize
  if ok then
    let w := ⟨s.nextId,offset,nrPages,.notInitiated,false,false⟩
    (.created,{ iovad := iova :: s.iovad,windows := w :: s.windows,nextId := s.nextId + 1 })
  else (.failed (-enomem),{ s with iovad := freeIova (iova :: s.iovad) (offset / pageSize) })

def badFixed (offset : Int) (len : Nat) : Bool := offset % pageSize ≠ 0 ∨ offset < 0 ∨
    2 ^ 63 ≤ offset + len

structure RegisterArgs where
  addr : Nat
  len : Nat
  offset : Int
  prot : Nat
  mapFlags : Nat

def RegisterArgs.invalid (r : RegisterArgs) : Bool :=
  r.mapFlags ||| (scifMapFixed ||| scifMapKernel) ≠ scifMapFixed ||| scifMapKernel ∨
    r.mapFlags &&& scifMapFixed ≠ 0 ∧ badFixed r.offset r.len ∨ r.prot ||| 3 ≠ 3 ∨ r.len = 0 ∨
      r.addr % 4096 ≠ 0 ∨ r.len % 4096 ≠ 0

/-- The answer to `-EADDRINUSE`: the first window of `reg_list` at the offset decides. -/
def addrInUse (windows : List SelfWindow) (offset : Int) (expired : Bool) : Outcome :=
  match windows.find? (fun w => w.listed ∧ w.offset ≤ offset ∧ offset < w.endOffset) with
  | some w =>
    if w.unregState = .denied ∨ w.unregState = .notInitiated then .failed (-eaddrinuse)
    else if expired then .failed (-enodev)
    else .again
  | none => if expired then .failed (-enodev) else .again

/-- `scif_register` on a connected endpoint, up to the new window. -/
def scifRegister (r : RegisterArgs) (env : Env) : Outcome × Space :=
  if r.invalid then (.failed (-einval),s)
  else
    match scifGetWindowOffset s.iovad r.mapFlags r.offset (toInt32 (r.len / 4096 : Nat)) env with
    | .ok iova =>
      if env.peerDev then scifCreateWindow s iova (r.len / 4096 : Nat) env.create
      else (.failed (-enodev),{ s with
        iovad := freeIova (iova :: s.iovad) (iova.pfnLo * pageSize / pageSize) })
    | .error err =>
      if err = -eaddrinuse then (addrInUse s.windows r.offset env.expired,s)
      else (.failed err,s)

/-- `refCount` is that of the pinned pages; 0 after `scif_unpin_pages`. -/
structure PinnedArgs where
  nrPages : Nat
  refCount : Nat
  offset : Int
  mapFlags : Nat

variable (p : PinnedArgs)

def PinnedArgs.len : Nat := p.nrPages * 4096

def PinnedArgs.invalid : Bool :=
  p.mapFlags ||| scifMapFixed ≠ scifMapFixed ∨
    p.mapFlags &&& scifMapFixed ≠ 0 ∧ badFixed p.offset p.len ∨ p.refCount = 0

/-- `scif_register_pinned_pages` on a connected endpoint, up to the new window; it passes the
length in bytes. -/
def scifRegisterPinnedPages (env : Env) : Outcome × Space :=
  if p.invalid then (.failed (-einval),s)
  else
    match scifGetWindowOffset s.iovad p.mapFlags p.offset (toInt32 p.len) env with
    | .ok iova => scifCreateWindow s iova p.nrPages env.create
    | .error err => (.failed err,s)

def updateSelf (ws : List SelfWindow) (id : Nat) (f : SelfWindow → SelfWindow) : List SelfWindow :=
  ws.map (fun w => if w.id = id then f w else w)

def scifFreeWindowOffset (w : SelfWindow) : List Iova :=
  if w.offsetFreed then iovad else freeIova iovad (w.offset / pageSize)

def scifRecvDelWindow (w : SelfWindow) : Space :=
  { s with
    iovad := scifFreeWindowOffset s.iovad w
    windows := updateSelf s.windows w.id
      (fun w => { w with unregState := .accepted,listed := false,offsetFreed := true }) }

def scifDestroyWindow (w : SelfWindow) : Space :=
  { s with
    iovad := scifFreeWindowOffset s.iovad w
    windows := s.windows.filter (fun v => v.id ≠ w.id) }

inductive Act
  | register (r : RegisterArgs) (env : Env)
  | registerPinned (p : PinnedArgs) (env : Env)
  | insertLocal (w : SelfWindow)
  | mark (w : SelfWindow) (state : UnregState)
  | recvDel (w : SelfWindow)
  | destroy (w : SelfWindow)

/-- What `alloc_iova` returns: as many frames as asked for, none of them reserved. -/
def AllocOk (numPages : Int) (env : Env) : Prop :=
  ∀ pfn ∈ env.alloc,∀ iova ∈ iovad,isRangeOverlap iova pfn (pfn + toU64 numPages - 1) = false
deriving Decidable

/-- A window enters `reg_list` once its registration is done, leaves it with
`SCIF_DELETE_WINDOW`, and is destroyed off the list. -/
def Space.step : Act → Option Space
  | .register r env =>
    if AllocOk s.iovad (toInt32 (r.len / 4096 : Nat)) env then some (scifRegister s r env).2 else none
  | .registerPinned p env =>
    if AllocOk s.iovad (toInt32 p.len) env then some (scifRegisterPinnedPages s p env).2 else none
  | .insertLocal w =>
    if w ∈ s.windows ∧ w.offsetFreed = false then
      some { s with windows := updateSelf s.windows w.id (fun w => { w with listed := true }) }
    else none
  | .mark w state =>
    if w ∈ s.windows ∧ w.listed ∧ state ≠ .accepted then
      some { s with windows := updateSelf s.windows w.id (fun w => { w with unregState := state }) }
    else none
  | .recvDel w => if w ∈ s.windows ∧ w.listed then some (scifRecvDelWindow s w) else none
  | .destroy w => if w ∈ s.windows ∧ w.listed = false then some (scifDestroyWindow s w) else none

/-- What the call of a step returned. -/
def Act.outcome : Act → Option Outcome
  | .register r env => some (scifRegister s r env).1
  | .registerPinned p env => some (scifRegisterPinnedPages s p env).1
  | _ => none

/-- The range of a request with `SCIF_MAP_FIXED`. -/
def Act.fixedRange : Act → Option (Int × Int)
  | .register r _ => if r.mapFlags &&& scifMapFixed ≠ 0 then some (r.offset,r.offset + r.len) else none
  | .registerPinned p _ =>
    if p.mapFlags &&& scifMapFixed ≠ 0 then some (p.offset,p.offset + p.len) else none
  | _ => none

end Mpss.Scif.Offsets
