import Mathlib.Algebra.Order.Ring.Int

namespace Mpss.Micscif.Nm
open Function

inductive IdleState
  | pc0
  | pc3Ready
  | pc3
  | pc6
  | lost
deriving DecidableEq

inductive DependencyState
  | notDependent
  | dependent
  | disconnectReady
  | disconnected
deriving DecidableEq

/-- What the host keeps of the nodes: node 0 is the host, every node up to `maxid` a card. -/
structure Host where
  maxid : Nat
  idleState : Nat → IdleState
  depmtrx : Nat → Nat → DependencyState

variable (h : Host)

def Host.nodes : List Nat := List.range (h.maxid + 1)

def Host.setIdle (i : Nat) (st : IdleState) : Host := { h with idleState := update h.idleState i st }

def setNodedep (src dst : Nat) (st : DependencyState) : Host :=
  { h with depmtrx := update h.depmtrx src (update (h.depmtrx src) dst st) }

/-- A set of nodes, one bit for each. -/
abbrev Nodemask := Nat → Bool

inductive Status
  | ok
  | eopnotsupp
deriving DecidableEq

structure Search where
  visited : Nat → Bool
  stack : List Nat

def Search.visit (s : Search) (i : Nat) : Search := { s with visited := update s.visited i true }

def Search.push (s : Search) (i : Nat) : Search := { s with stack := i :: s.stack }

variable (node : Nat)

/-- The `for` loop of `micscif_get_activeset` over the nodes left. -/
def scanDisconnected : List Nat → Search → Search
  | [],s => s
  | i :: is,s =>
    if s.visited i = false ∧ h.depmtrx node i = .disconnected then
      if i ≠ 0 ∧ (h.idleState i = .pc3 ∨ h.idleState i = .pc6) then
        scanDisconnected is ((s.visit i).push i)
      else scanDisconnected is (s.visit i)
    else scanDisconnected is s

def activesetLoop : Nat → Nodemask → Search → Option Nodemask
  | _,mask,⟨_,[]⟩ => some mask
  | 0,_,⟨_,_ :: _⟩ => none
  | n + 1,mask,⟨visited,node :: stack⟩ =>
    activesetLoop n (update mask node true) (scanDisconnected h node h.nodes ⟨visited,stack⟩)

def getActiveset : Option Nodemask :=
  activesetLoop h (h.nodes.length + 1) (fun _ => false) ⟨update (fun _ => false) node true,[node]⟩

/-- A mask as the source keeps it, eight nodes to a byte. -/
abbrev MaskBytes := Nat → BitVec 8

variable (mask : MaskBytes)

def setNodemaskBit (id : Nat) (val : Bool) : MaskBytes :=
  update mask (id / 8) (if val then mask (id / 8) ||| 1#8 <<< (id % 8)
    else mask (id / 8) &&& ~~~(1#8 <<< (id % 8)))

def getNodemaskBit (id : Nat) : Bool := mask (id / 8) &&& 1#8 <<< (id % 8) ≠ 0#8

/-- `activesetLoop` on the bytes of the mask. -/
def activesetBytes : Nat → MaskBytes → Search → Option MaskBytes
  | _,mask,⟨_,[]⟩ => some mask
  | 0,_,⟨_,_ :: _⟩ => none
  | n + 1,mask,⟨visited,node :: stack⟩ =>
    activesetBytes n (setNodemaskBit mask node true)
      (scanDisconnected h node h.nodes ⟨visited,stack⟩)

def micscifGetActiveset : Option MaskBytes :=
  activesetBytes h (h.nodes.length + 1) mask ⟨update (fun _ => false) node true,[node]⟩

/-- The `for` loop of `micscif_get_minimal_deactiveset`: `false` at the first dependent node that is
active. -/
def scanDependents : List Nat → Search → Bool × Search
  | [],s => (true,s)
  | i :: is,s =>
    if s.visited i then scanDependents is s
    else
      match h.depmtrx i node with
      | .dependent => (false,s)
      | .disconnectReady => scanDependents is ((s.visit i).push i)
      | .notDependent | .disconnected => scanDependents is s

def clearVisited (visited : Nat → Bool) : List Nat → (Nat → Bool)
  | [] => visited
  | i :: stack => clearVisited (update visited i false) stack

/-- The label `exit_pop` after a failure: every pop is a success, and its status replaces the one
of the failure. -/
def exitPop (s : Search) : Status × (Nat → Bool) :=
  (if s.stack = [] then .eopnotsupp else .ok,clearVisited s.visited s.stack)

structure Found where
  status : Status
  nodemask : Nodemask
  visited : Nat → Bool

def minimalLoop : Nat → Nodemask → Search → Option Found
  | _,mask,⟨visited,[]⟩ => some ⟨.ok,mask,visited⟩
  | 0,_,⟨_,_ :: _⟩ => none
  | n + 1,mask,⟨visited,node :: stack⟩ =>
    let mask := update mask node true
    match scanDependents h node h.nodes ⟨visited,stack⟩ with
    | (true,s) => minimalLoop n mask s
    | (false,s) => some ⟨(exitPop s).1,mask,(exitPop s).2⟩

def getMinimalDeactiveset (mask : Nodemask) (visited : Nat → Bool) : Option Found :=
  minimalLoop h (h.nodes.length + 1) mask ⟨update visited node true,[node]⟩

/-- The nodes `micscif_get_deactiveset` pushes for a node that goes: those it depends on that may
follow it. -/
def pushReady (visited : Nat → Bool) (stack : List Nat) : List Nat :=
  (h.nodes.filter (fun i => !visited i && h.depmtrx node i == .disconnectReady && i != 0 &&
    h.idleState i == .pc3Ready)).reverse ++ stack

def nodemaskIsvalid (mask : Nodemask) : Bool := h.nodes.any mask

/-- The `while` loop of `micscif_get_deactiveset`, with the status of the statement before. -/
def deactivesetLoop (maxDisconn : Bool) :
    Nat → Status → Nodemask → Search → Option (Status × Nodemask)
  | _,status,mask,⟨_,[]⟩ => some (if nodemaskIsvalid h mask then status else .eopnotsupp,mask)
  | 0,_,_,⟨_,_ :: _⟩ => none
  | n + 1,_,mask,⟨visited,node :: stack⟩ =>
    let more := fun (v : Nat → Bool) => if maxDisconn then pushReady h node v stack else stack
    if visited node then deactivesetLoop maxDisconn n .ok mask ⟨visited,more visited⟩
    else
      match getMinimalDeactiveset h node mask visited with
      | none => none
      | some ⟨.ok,mask,visited⟩ => deactivesetLoop maxDisconn n .ok mask ⟨visited,more visited⟩
      | some ⟨.eopnotsupp,mask,visited⟩ =>
        deactivesetLoop maxDisconn n .eopnotsupp mask ⟨visited,stack⟩

def getDeactiveset (maxDisconn : Bool) : Option (Status × Nodemask) :=
  deactivesetLoop h maxDisconn (h.nodes.length ^ 2 + 1) .ok (fun _ => false) ⟨fun _ => false,[node]⟩

inductive ScifState
  | notpresent
  | init
  | running
  | sleeping
  | stopping
  | stopped
deriving DecidableEq

/-- The magic bit as the only bit of a `long`. -/
def scifNodeIdle : Int := -2 ^ 63

def eagain : Int := 11

def ebusy : Int := 16

structure MicscifDev where
  sdState : ScifState
  scifRefCnt : Int
deriving DecidableEq

/-- The variables of `micscif_suspend`. -/
structure Suspending where
  ret : Int
  nodemask : MaskBytes
  dev : Nat → MicscifDev

def suspendNode (s : Suspending) (i : Nat) : Suspending :=
  if getNodemaskBit s.nodemask i ∧ (s.dev i).sdState = .running then
    if (s.dev i).scifRefCnt = 0 ∨ (s.dev i).scifRefCnt = scifNodeIdle then
      { s with ret := 0,dev := update s.dev i ⟨.sleeping,scifNodeIdle⟩ }
    else { s with ret := eagain,nodemask := setNodemaskBit s.nodemask i false }
  else s

def micscifSuspend (maxid : Nat) (nodemask : MaskBytes) (dev : Nat → MicscifDev) : Suspending :=
  (List.range (maxid + 1)).foldl suspendNode ⟨0,nodemask,dev⟩

def handlerMask (maxid nodeid : Nat) : MaskBytes :=
  (List.range (maxid + 1)).foldl (fun mask node =>
    if node ≠ 0 ∧ node ≠ nodeid then setNodemaskBit mask node true else mask) (fun _ => 0#8)

/-- The result, and whether `dma_suspend` was called. -/
def micscifSuspendHandler (maxid nodeid : Nat) (dev : Nat → MicscifDev) : Int × Bool :=
  if (micscifSuspend maxid (handlerMask maxid nodeid) dev).ret ≠ 0 then (-ebusy,false) else (0,true)

def long (n : Int) : Int := n.bmod (2 ^ 64)

/-- A remote device and its threads: those refused, those in a section, counted or not, and those
with a count below 0. `cleaning` while `micscif_cleanup_scifdev` waits. -/
structure Activity extends MicscifDev where
  entering : Nat
  counted : Nat
  uncounted : Nat
  restoring : Nat
  cleaning : Bool
deriving DecidableEq

def init : Activity := ⟨⟨.running,0⟩,0,0,0,0,false⟩

def addUnless (n : Int) : Int := if n = scifNodeIdle then n else long (n + 1)

/-- The part of `micscif_inc_node_refcnt` under the lock; the host may refuse to wake the node
up. -/
def incLocked (s : Activity) (ack : Bool) : Activity :=
  if s.sdState ∈ [.stopped,.stopping,.init] then { s with uncounted := s.uncounted + 1 }
  else if s.scifRefCnt < 0 ∧ ack then
    { s with
      sdState := .running,scifRefCnt := long (s.scifRefCnt + 2 ^ 63 + 1),counted := s.counted + 1 }
  else { s with scifRefCnt := long (s.scifRefCnt + 1),counted := s.counted + 1 }

def decNodeRefcnt (s : Activity) : Activity :=
  if long (s.scifRefCnt - 1) < 0 then
    { s with scifRefCnt := long (s.scifRefCnt - 1),restoring := s.restoring + 1 }
  else { s with scifRefCnt := long (s.scifRefCnt - 1) }

inductive Act
  | inc
  | incLocked (ack : Bool)
  | dec
  | decUncounted
  | restore
  | remove
  | stop
  | spin

def step (s : Activity) : Act → Option Activity
  | .inc =>
    if s.scifRefCnt = scifNodeIdle then some { s with entering := s.entering + 1 }
    else some { s with scifRefCnt := addUnless s.scifRefCnt,counted := s.counted + 1 }
  | .incLocked ack =>
    if 0 < s.entering then some (incLocked { s with entering := s.entering - 1 } ack) else none
  | .dec =>
    if 0 < s.counted then some (decNodeRefcnt { s with counted := s.counted - 1 }) else none
  | .decUncounted =>
    if 0 < s.uncounted then some (decNodeRefcnt { s with uncounted := s.uncounted - 1 }) else none
  | .restore =>
    if 0 < s.restoring then
      some { s with scifRefCnt := addUnless s.scifRefCnt,restoring := s.restoring - 1 }
    else none
  | .remove =>
    if s.sdState = .running ∧ (s.scifRefCnt = 0 ∨ s.scifRefCnt = scifNodeIdle) then
      some { s with sdState := .sleeping,scifRefCnt := scifNodeIdle }
    else some s
  | .stop =>
    if s.sdState = .running ∨ s.sdState = .sleeping then some { s with
      sdState := .stopped,cleaning := true }
    else some s
  | .spin =>
    if s.cleaning ∧ (s.scifRefCnt = 0 ∨ s.scifRefCnt = scifNodeIdle) then
      some { s with scifRefCnt := scifNodeIdle,cleaning := false }
    else some s

end Mpss.Micscif.Nm
