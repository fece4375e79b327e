import Mpss.Scif.Window

namespace Mpss.Scif.Connect
open Scif.Window Function

/-- `SCIF_CNCT_REQ`: the connecting endpoint and the port it wants; `attempt` tells which of
the endpoint's `scif_connect` calls sent it. -/
structure Conreq where
  ep : Nat
  port : Nat
  attempt : Nat
deriving DecidableEq

inductive Msg
  | req (r : Conreq)
  | gnt (ep qpOffset cep : Nat)
  | gntAck (cep : Nat)
  | gntNack (cep : Nat)
  | rej (ep : Nat)
deriving DecidableEq

/-- Where the `scif_connect` call of an endpoint is. -/
inductive Phase
  | idle
  | begun
  | waiting
  | acking
deriving DecidableEq

/-- An endpoint that connects. `attempt` counts its calls. -/
structure Connector where
  state : EpState
  phase : Phase
  connPort : Nat
  remoteEp : Nat
  gntPld : Nat
  attempt : Nat

/-- An endpoint that `scif_accept` made for the request of `attempt`. -/
structure Accepted where
  state : EpState
  remoteEp : Nat
  qpOffset : Nat
  granted : Bool
  attempt : Nat

structure Listener where
  backlog : Nat
  conlist : List Conreq

/-- The endpoints of both nodes by address, the listeners by port. -/
structure Net where
  connector : Nat → Connector
  accepted : Nat → Option Accepted
  listener : Nat → Option Listener
  inFlight : List Msg

def Net.init : Net :=
  { connector := fun _ => ⟨.bound,.idle,0,0,0,0⟩,accepted := fun _ => none
    listener := fun _ => none,inFlight := [] }

variable (s : Net)

def Net.send (m : Msg) : Net := { s with inFlight := m :: s.inFlight }

def Net.setConnector (c : Nat) (k : Connector) : Net := { s with connector := update s.connector c k }

def Net.setAccepted (a : Nat) (cep : Option Accepted) : Net :=
  { s with accepted := update s.accepted a cep }

def Net.setListener (port : Nat) (l : Listener) : Net :=
  { s with listener := update s.listener port (some l) }

/-- `mem` says whether the request can be stored. -/
def scifCnctreq (r : Conreq) (mem : Bool) : Net :=
  match s.listener r.port with
  | some l =>
    if mem ∧ l.conlist.length < l.backlog then s.setListener r.port
      { l with conlist := l.conlist ++ [r] }
    else s.send (.rej r.ep)
  | none => s.send (.rej r.ep)

def scifCnctgnt (ep qpOffset cep : Nat) : Net :=
  let k := s.connector ep
  if k.state = .connecting then
    s.setConnector ep { k with gntPld := qpOffset,remoteEp := cep,state := .mapping }
  else s

def setState (cep : Nat) (state : EpState) : Net :=
  s.setAccepted cep ((s.accepted cep).map (fun a => { a with state := state }))

def scifCnctgntAck (cep : Nat) : Net := setState s cep .connected

def scifCnctgntNack (cep : Nat) : Net := setState s cep .closing

def scifCnctrej (ep : Nat) : Net :=
  let k := s.connector ep
  if k.state = .connecting then s.setConnector ep { k with state := .bound } else s

def handle (mem : Bool) : Msg → Net
  | .req r => scifCnctreq s r mem
  | .gnt ep qpOffset cep => scifCnctgnt s ep qpOffset cep
  | .gntAck cep => scifCnctgntAck s cep
  | .gntNack cep => scifCnctgntNack s cep
  | .rej ep => scifCnctrej s ep

/-- The first part of `scif_conn_func`: no channel or queue pair, no peer or a failed send, or the
request sent. -/
inductive Start
  | noQp
  | unsent
  | sent

/-- The last part: the queue pair mapped and acknowledged, not mapped, or not acknowledged. -/
inductive Mapped
  | acked
  | unmapped (nackSent : Bool)
  | ackUnsent

inductive Act
  | listen (port backlog : Nat)
  | connect (c port : Nat)
  | connectSend (c : Nat) (r : Start)
  | connectTimeout (c : Nat)
  | connectWake (c : Nat) (r : Mapped)
  | connectDone (c : Nat)
  | deliver (m : Msg) (mem : Bool)
  | accept (port cep : Nat)
  | acceptNoMem (port : Nat)
  | acceptGrant (cep qpOffset : Nat)
  | acceptFail (cep : Nat)
  | acceptNacked (cep : Nat)

/-- A call of `scif_connect` is split where messages can come in between. -/
def connectWake (c : Nat) (r : Mapped) : Net :=
  let k := s.connector c
  if k.state = .mapping then
    match r with
    | .acked => (s.setConnector c { k with phase := .acking }).send (.gntAck k.remoteEp)
    | .unmapped nackSent =>
      let t := s.setConnector c { k with phase := .idle,state := .bound }
      if nackSent then t.send (.gntNack k.remoteEp) else t
    | .ackUnsent => s.setConnector c { k with phase := .idle,state := .bound }
  else s.setConnector c { k with phase := .idle }

def connectSend (c : Nat) : Start → Net
  | .noQp => s.setConnector c { s.connector c with phase := .idle,state := .bound }
  | .unsent => s.setConnector c { s.connector c with phase := .idle }
  | .sent =>
    let k := s.connector c
    (s.setConnector c { k with phase := .waiting }).send (.req ⟨c,k.connPort,k.attempt⟩)

def Net.step : Act → Option Net
  | .listen port backlog =>
    if (s.listener port).isNone then some (s.setListener port ⟨backlog,[]⟩) else none
  | .connect c port =>
    let k := s.connector c
    if k.phase = .idle ∧ (k.state = .bound ∨ k.state = .unbound) then
      some (s.setConnector c
        { k with state := .connecting,phase := .begun,connPort := port,attempt := k.attempt + 1 })
    else none
  | .connectSend c r => if (s.connector c).phase = .begun then some (connectSend s c r) else none
  | .connectTimeout c =>
    if (s.connector c).phase = .waiting then
      some (s.setConnector c { s.connector c with phase := .idle,state := .bound })
    else none
  | .connectWake c r =>
    if (s.connector c).phase = .waiting ∧ (s.connector c).state ≠ .connecting then
      some (connectWake s c r)
    else none
  | .connectDone c =>
    if (s.connector c).phase = .acking then
      some (s.setConnector c { s.connector c with phase := .idle,state := .connected })
    else none
  | .deliver m mem =>
    if m ∈ s.inFlight then some (handle { s with inFlight := s.inFlight.erase m } mem m) else none
  | .accept port cep =>
    match s.listener port,s.accepted cep with
    | some ⟨backlog,r :: conlist⟩,none =>
      some ((s.setListener port ⟨backlog,conlist⟩).setAccepted cep
        (some ⟨.connecting,r.ep,0,false,r.attempt⟩))
    | _,_ => none
  | .acceptNoMem port =>
    match s.listener port with
    | some ⟨backlog,r :: conlist⟩ => some ((s.setListener port ⟨backlog,conlist⟩).send (.rej r.ep))
    | _ => none
  | .acceptGrant cep qpOffset =>
    match s.accepted cep with
    | some a =>
      if a.granted then none
      else some ((s.setAccepted cep (some { a with granted := true,qpOffset := qpOffset })).send
        (.gnt a.remoteEp qpOffset cep))
    | none => none
  | .acceptFail cep =>
    match s.accepted cep with
    | some a => if a.granted then none else some ((s.setAccepted cep none).send (.rej a.remoteEp))
    | none => none
  | .acceptNacked cep =>
    match s.accepted cep with
    | some a => if a.state = .closing then some (s.setAccepted cep none) else none
    | none => none

end Mpss.Scif.Connect
