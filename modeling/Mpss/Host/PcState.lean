import Mpss.Micscif.Nm

namespace Mpss.Host.PcState

open Micscif.Nm Function

/-- How the other parties take a transaction: the three disconnects, and for each card whether it
answers a wakeup. -/
structure Answers where
  scif : Bool
  pm : Bool
  vcons : Bool
  wakes : Nat → Bool

variable (h : Host)

/-- Between two cards, in the ids a card can have. -/
def cardPair (i j : Nat) : Prop := (1 ≤ i ∧ i ≤ h.maxid) ∧ 1 ≤ j ∧ j ≤ h.maxid
deriving Decidable

def setupPmDependency : Host :=
  { h with
    depmtrx := fun i j =>
      if cardPair h i j ∧ h.idleState i = .pc3Ready ∧ h.depmtrx i j = .dependent then .disconnectReady
      else h.depmtrx i j }

def teardownPmDependency : Host :=
  { h with
    depmtrx := fun i j =>
      if cardPair h i j ∧ h.depmtrx i j = .disconnectReady then .dependent else h.depmtrx i j }

/-- A card that does not answer stays as it is. -/
def pmPc3Exit (i : Nat) (wakes : Bool) : Bool × Host :=
  if wakes then (true,h.setIdle i .pc0) else (false,h)

def pmPc6Exit (i : Nat) : Host :=
  { h.setIdle i .pc0 with
    depmtrx := update h.depmtrx i
      (fun j => if j ≤ h.maxid ∧ h.depmtrx i j = .disconnected then .dependent else h.depmtrx i j) }

variable (mask : Nodemask)

def revertIdleEntry (wakes : Nat → Bool) : List Nat → Host → Host
  | [],h => h
  | i :: is,h =>
    if i ≠ 0 ∧ mask i ∧ h.idleState i = .pc3 then
      if wakes i then revertIdleEntry wakes is (h.setIdle i .pc0)
      else revertIdleEntry wakes is (h.setIdle i .lost)
    else revertIdleEntry wakes is h

def enterPc3 : List Nat → Host → Bool × Host
  | [],h => (true,h)
  | i :: is,h =>
    if i ≠ 0 ∧ mask i then
      if h.idleState i = .pc3Ready then enterPc3 is (h.setIdle i .pc3) else (false,h)
    else enterPc3 is h

/-- What happens to the nodes of the deactivation set. -/
def suspend (found : Status × Nodemask) (answers : Answers) : Bool × Host :=
  if found.1 = .ok ∧ answers.scif ∧ answers.pm ∧ answers.vcons then
    match enterPc3 found.2 h.nodes h with
    | (true,h) => (true,h)
    | (false,h) => (false,revertIdleEntry found.2 answers.wakes h.nodes h)
  else (false,h)

def doIdlestateEntry (node : Nat) (answers : Answers) : Option (Bool × Host) :=
  let h := setupPmDependency h
  (getDeactiveset h node true).map (fun found =>
    let r := suspend h found answers
    let h := teardownPmDependency r.2
    if r.1 = false ∧ h.idleState node ≠ .pc0 then (false,(pmPc3Exit h node (answers.wakes node)).2)
    else (r.1,h))

def wakeNodes : List Nat → Host → Bool × Host
  | [],h => (true,h)
  | i :: is,h =>
    if i ≠ 0 ∧ mask i then
      match h.idleState i with
      | .pc3 | .pc3Ready => wakeNodes is (pmPc3Exit h i true).2
      | .pc6 => wakeNodes is (pmPc6Exit h i)
      | .pc0 => wakeNodes is h
      | .lost => (false,h)
    else wakeNodes is h

def doIdlestateExit (node : Nat) : Option (Bool × Host) :=
  (getActiveset h node).map (fun mask => wakeNodes mask h.nodes h)

/-- `entered` tells how `pm_pc3_to_pc6_entry` ends. -/
def pc6EntryStart (node : Nat) (entered : Bool) : Host :=
  if h.idleState node = .pc3 ∧ entered then h.setIdle node .pc6 else h

/-- The host and the dependencies the cards have reported and not taken back. -/
structure State where
  host : Host
  deps : Nat → Nat → Bool

def init (maxid : Nat) : State :=
  { host := ⟨maxid,fun _ => .pc0,fun _ _ => .notDependent⟩,deps := fun _ _ => false }

inductive Act
  | createDep (i j : Nat)
  | destroyDep (i j : Nat)
  | ready (i : Nat)
  | entry (i : Nat) (answers : Answers)
  | pc6 (i : Nat) (entered : Bool)
  | exit (i : Nat)

def IsAwake (st : IdleState) : Prop := st = .pc0 ∨ st = .pc3Ready
deriving Decidable

def IsAsleep (st : IdleState) : Prop := st = .pc3 ∨ st = .pc6
deriving Decidable

def report (s : State) (i j : Nat) (dep : Bool) : State :=
  { host := setNodedep s.host i j (if dep then .dependent else .notDependent)
    deps := update s.deps i (update (s.deps i) j dep) }

/-- Any number of cards are `ready`, outside the mutex, before the first of them gets it. -/
def step (s : State) : Act → Option State
  | .createDep i j =>
    if cardPair s.host i j ∧ IsAwake (s.host.idleState i) ∧ IsAwake (s.host.idleState j) then
      some (report s i j true)
    else none
  | .destroyDep i j =>
    if cardPair s.host i j ∧ IsAwake (s.host.idleState i) ∧ IsAwake (s.host.idleState j) then
      some (report s i j false)
    else none
  | .ready i =>
    if cardPair s.host i i ∧ s.host.idleState i = .pc0 then
      some { s with host := s.host.setIdle i .pc3Ready }
    else none
  | .entry i answers =>
    if cardPair s.host i i ∧ s.host.idleState i = .pc3Ready then
      (doIdlestateEntry s.host i answers).map (fun r => { s with host := r.2 })
    else none
  | .pc6 i entered =>
    if cardPair s.host i i then some { s with host := pc6EntryStart s.host i entered } else none
  | .exit i =>
    if cardPair s.host i i then (doIdlestateExit s.host i).map (fun r => { s with host := r.2 })
    else none

end Mpss.Host.PcState
