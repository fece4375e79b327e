import Mathlib.Algebra.Order.Ring.Int

namespace Mpss.Cosm.StateFlow

inductive MicState
  | unknown
  | error
  | ready
  | online
  | onlineFirmware
  | shutdown
  | resetting
  | shuttingDown
  | booting
  | bootingFirmware
  deriving DecidableEq

inductive MicCmd
  | none
  | bootFirmware
  | boot
  | reset
  | resetFromCard
  | resetForce
  | resetForceWarm
  | shutdown
  | shutdownFromCard
  | shutdownForce
  | handlePanic
  | handleHang
  deriving DecidableEq

/-- An entry of `cosm_commands`, without its functions. -/
structure Command where
  hidden : Bool
  abortCurrent : Bool
  temporalState : MicState
  targetState : MicState

def cosmCommands : MicCmd → Command
  | .none => ⟨true,false,.unknown,.unknown⟩
  | .handlePanic => ⟨true,true,.unknown,.error⟩
  | .handleHang => ⟨true,true,.unknown,.error⟩
  | .bootFirmware => ⟨false,false,.bootingFirmware,.onlineFirmware⟩
  | .boot => ⟨false,false,.booting,.online⟩
  | .reset => ⟨false,false,.resetting,.ready⟩
  | .resetFromCard => ⟨true,false,.resetting,.ready⟩
  | .resetForce => ⟨false,true,.resetting,.ready⟩
  | .resetForceWarm => ⟨false,true,.resetting,.ready⟩
  | .shutdown => ⟨false,false,.shuttingDown,.shutdown⟩
  | .shutdownFromCard => ⟨true,false,.shuttingDown,.shutdown⟩
  | .shutdownForce => ⟨false,true,.shuttingDown,.shutdown⟩

/-- `is_command_allowed`, by the masks of `cosm_states`. -/
def isCommandAllowed : MicState → MicCmd → Bool
  | .ready,cmd => cmd = .bootFirmware ∨ cmd = .boot ∨ cmd = .reset ∨ cmd = .shutdown
  | .online,cmd => cmd = .reset ∨ cmd = .resetFromCard ∨ cmd = .shutdown ∨ cmd = .shutdownFromCard
  | .onlineFirmware,cmd => cmd = .reset
  | .shutdown,cmd => cmd = .reset
  | .error,cmd => cmd = .reset
  | .unknown,cmd => cmd = .reset
  | _,_ => false

def temporal (st : MicState) : Bool := st = .resetting ∨ st = .shuttingDown ∨ st = .booting ∨
    st = .bootingFirmware

/-- Where a call of `cosm_set_command` is, once it holds `command_mutex`. -/
inductive CallPc
  | already
  | processing
  | busy
  | allowed
  | cancel
  | wait
  deriving DecidableEq

structure Call where
  cmd : MicCmd
  byWork : Bool
  pc : CallPc

/-- Where `cosm_state_flow` is. -/
inductive FlowPc
  | invoke
  | complete
  | check
  | exit (state : MicState) (msg : Option String)
  | clear
  deriving DecidableEq

inductive Flow
  | idle
  | pending
  | running (cmd : MicCmd) (pc : FlowPc)
  deriving DecidableEq

/-- A message of the card, with the number of boots that had begun when it was sent. -/
structure CardMsg where
  change : Bool
  state : MicState
  boot : Nat

/-- Where `cosm_scif_work` is: with a message between `scif_recv` and `cosm_status_handler`, or in
`cosm_set_command`, after which it exits or not. -/
inductive Work
  | stopped
  | poll
  | got (m : CardMsg)
  | call (last : Bool)

/-- A `cosm_device`. `queue` holds the messages of the connection that `cosm_scif_work` serves,
`waiting` those of the next one; `boots`, `bootLog` and `heard` record the boots, what each found
registered, and the online messages handled. -/
structure Cdev where
  state : MicState
  previousState : MicState
  stateMsg : Option String
  executeOnReady : MicCmd
  id : MicCmd
  receivedOnline : Bool
  abort : Bool
  vop : Bool
  scif : Bool
  call : Option Call
  flow : Flow
  work : Work
  queue : List CardMsg
  waiting : Option (List CardMsg)
  boots : Nat
  bootLog : List (Bool × Bool)
  heard : List Nat

/-- What `cosm_driver_probe` leaves before its own call of `cosm_set_command`. -/
def probed : Cdev where
  state := .unknown
  previousState := .unknown
  stateMsg := none
  executeOnReady := .none
  id := .none
  receivedOnline := false
  abort := false
  vop := false
  scif := false
  call := none
  flow := .idle
  work := .stopped
  queue := []
  waiting := none
  boots := 0
  bootLog := []
  heard := []

variable (s : Cdev)

def cosmSwitchToState (state : MicState) (msg : Option String) : Cdev :=
  { s with
    executeOnReady := if s.state = .ready ∨ state = .error then .none else s.executeOnReady
    previousState := s.state
    state := state
    stateMsg := msg }

def cosmStop : Cdev := { s with scif := false,vop := false }

/-- How `hw_ops->boot` ends. -/
inductive BootResult
  | notReady
  | vopFailed
  | scifFailed
  | loadFailed
  | booted
  deriving DecidableEq

def micBoot (r : BootResult) : Cdev × Bool :=
  let s := { s with boots := s.boots + 1,bootLog := (s.vop,s.scif) :: s.bootLog }
  match r with
  | .notReady => (s,false)
  | .vopFailed => ({ s with vop := false },false)
  | .scifFailed => ({ s with scif := false,vop := false },false)
  | .loadFailed => ({ s with scif := false,vop := false },false)
  | .booted => ({ s with vop := true,scif := true },true)

/-- What the hardware and the card answer during `invoke`. -/
structure Answers where
  safe : Bool
  detected : MicState
  sent : Bool
  done : Bool
  boot : BootResult

def hasEpd : Bool :=
  match s.work with
  | .stopped => false
  | _ => true

def cosmReset (a : Answers) : Cdev × Bool :=
  if s.previousState = .unknown ∧ a.detected = .resetting then (s,true)
  else if hasEpd s ∧ s.previousState = .online ∧ a.sent then (s,true)
  else (cosmStop s,a.done)

def cosmShutdown (a : Answers) : Cdev × Bool :=
  if a.detected = .ready then (cosmStop s,a.done)
  else if hasEpd s ∧ s.previousState = .online ∧ a.sent then (s,true)
  else (s,false)

/-- The `invoke` function of a command, if it has one: whether it succeeds, and the message it
leaves. -/
def invoke (a : Answers) : MicCmd → Cdev × Bool × Option String
  | .bootFirmware => (s,a.done,none)
  | .boot =>
    if a.safe then
      let r := micBoot s a.boot
      (r.1,r.2,none)
    else (s,false,some "memory above supported value, enable IOMMU")
  | .reset =>
    let r := cosmReset s a
    (r.1,r.2,none)
  | .resetForce | .resetForceWarm | .shutdownForce => (cosmStop s,a.done,none)
  | .shutdown =>
    let r := cosmShutdown s a
    (r.1,r.2,none)
  | .none | .resetFromCard | .shutdownFromCard | .handlePanic | .handleHang => (s,true,none)

def complete (detected : MicState) : MicCmd → Cdev × Bool × Option String
  | .none => (s,false,none)
  | .bootFirmware => (s,detected = .onlineFirmware,none)
  | .boot => (s,s.receivedOnline,none)
  | .reset | .resetForce | .resetForceWarm =>
    if detected = .ready then (cosmStop s,true,none) else (s,false,none)
  | .resetFromCard =>
    if detected = .ready then ({ cosmStop s with executeOnReady := .boot },true,none)
      else (s,false,none)
  | .shutdown | .shutdownFromCard | .shutdownForce =>
    if detected = .shutdown then (cosmStop s,true,none) else (s,false,none)
  | .handlePanic => (s,true,some "kernel panic")
  | .handleHang => (s,true,some "coprocessor not responding")

inductive Act
  | user (cmd : MicCmd)
  | test
  | cancel
  | leave
  | start
  | invoke (a : Answers)
  | complete (detected : MicState)
  | check (timedOut : Bool)
  | exit
  | clear
  | connect
  | send (toWaiting change : Bool) (state : MicState)
  | accept
  | recv
  | handle
  | hang
  | resume
  | close

def enter (cmd : MicCmd) (byWork : Bool) : Option Cdev :=
  if s.call.isSome then none
  else if (cosmCommands cmd).abortCurrent then
    some { s with abort := true,call := some ⟨cmd,byWork,.cancel⟩ }
  else some { s with call := some ⟨cmd,byWork,.already⟩ }

/-- One test of `cosm_set_command`; the flow may go on between two of them. -/
def test (c : Call) : Option Cdev :=
  let next (refused : Bool) (pc : CallPc) : Option Cdev :=
    some { s with call := if refused then none else some { c with pc := pc } }
  match c.pc with
  | .already => next (s.id = .none ∧ (cosmCommands c.cmd).targetState = s.state) .processing
  | .processing =>
    next (s.id ≠ .none ∧ (cosmCommands c.cmd).targetState = (cosmCommands s.id).targetState) .busy
  | .busy => next (s.id ≠ .none) .allowed
  | .allowed => next (!isCommandAllowed s.state c.cmd) .cancel
  | .cancel | .wait => none

/-- `cancel_work_sync` takes a pending flow back and waits for a running one; then the command is
set and its flow scheduled. -/
def cancel (c : Call) : Option Cdev :=
  match s.flow with
  | .running _ _ => none
  | .idle | .pending =>
    some { s with
      id := c.cmd
      abort := false
      receivedOnline := false
      flow := .pending
      call := some { c with pc := .wait } }

/-- `cosm_scif_work` goes on, or closes its connection and exits. -/
def continueWork (last : Bool) : Cdev :=
  if last then { s with work := .stopped,queue := [] } else { s with work := .poll }

/-- `cosm_status_handler`; a command waits for the mutex. -/
def statusHandler (m : CardMsg) : Option Cdev :=
  match m.state with
  | .online => some { s with receivedOnline := true,work := .poll,heard := m.boot :: s.heard }
  | .resetting => enter { s with work := .call false } .resetFromCard true
  | .shuttingDown => enter { s with work := .call false } .shutdownFromCard true
  | .error => enter { s with work := .call true } .handlePanic true
  | _ => some (continueWork s false)

def byWork : Bool :=
  match s.call with
  | some c => c.byWork
  | none => false

def step : Act → Option Cdev
  | .user cmd => if (cosmCommands cmd).hidden then none else enter s cmd false
  | .test => s.call.bind (test s)
  | .cancel => s.call.bind fun c => if c.pc = .cancel then cancel s c else none
  | .leave => s.call.bind fun c => if c.pc = .wait then some { s with call := none } else none
  | .start =>
    match s.flow with
    | .pending =>
      let s' :=
        if (cosmCommands s.id).temporalState ≠ .unknown then
          cosmSwitchToState s (cosmCommands s.id).temporalState none
        else s
      some { s' with flow := .running s.id .invoke }
    | _ => none
  | .invoke a =>
    match s.flow with
    | .running cmd .invoke =>
      let r := invoke s a cmd
      some { r.1 with flow := .running cmd (if r.2.1 then .complete else .exit .error r.2.2) }
    | _ => none
  | .complete detected =>
    match s.flow with
    | .running cmd .complete =>
      let r := complete s detected cmd
      some { r.1 with
        flow := .running cmd (if r.2.1 then .exit (cosmCommands cmd).targetState r.2.2 else .check) }
    | _ => none
  | .check timedOut =>
    match s.flow with
    | .running cmd .check =>
      if timedOut then some { s with
        flow := .running cmd (.exit .error (some "interrupted by timeout")) }
      else if s.abort then some { s with flow := .idle }
      else some { s with flow := .running cmd .complete }
    | _ => none
  | .exit =>
    match s.flow with
    | .running cmd (.exit state msg) =>
      some { cosmSwitchToState s state msg with flow := .running cmd .clear }
    | _ => none
  | .clear =>
    match s.flow with
    | .running _ .clear => some { s with id := .none,flow := .idle }
    | _ => none
  | .connect =>
    match s.waiting with
    | none => some { s with waiting := some [] }
    | some _ => none
  | .send toWaiting change state =>
    let m : CardMsg := ⟨change,state,s.boots⟩
    if toWaiting then s.waiting.map fun q => { s with waiting := some (q ++ [m]) }
    else if hasEpd s then some { s with queue := s.queue ++ [m] }
    else none
  | .accept =>
    match s.work,s.waiting with
    | .stopped,some q => some { s with work := .poll,queue := q,waiting := none }
    | _,_ => none
  | .recv =>
    match s.work,s.queue with
    | .poll,m :: queue => some { s with work := .got m,queue := queue }
    | _,_ => none
  | .handle =>
    match s.work with
    | .got m =>
      if m.change then statusHandler s m
      else some (continueWork s (m.state = .error))
    | _ => none
  | .hang =>
    match s.work with
    | .poll => enter { s with work := .call true } .handleHang true
    | _ => none
  | .resume =>
    match s.work with
    | .call last => if byWork s then none else some (continueWork s last)
    | _ => none
  | .close =>
    match s.work with
    | .poll => some (continueWork s true)
    | _ => none

end Mpss.Cosm.StateFlow
