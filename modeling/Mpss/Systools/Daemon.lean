import Mpss.Systools.Requests

namespace Mpss.Systools.Daemon
open Requests Function

def SCIF_ADMIN_PORT_END : Nat := 1024

/-- The other side of a connection. `mistaken` says that the daemon has found a mistake in what it
sent. -/
structure Peer where
  port : Nat
  inbox : Bytes
  hung : Bool
  mistaken : Bool

/-- A `ScifEp` with the `DaemonSession` around it; `conn` is the connection it was accepted for.
`shutdown` clears the port and keeps the descriptor. -/
structure Endpoint where
  ep : Nat
  port : Nat
  inProgress : Bool
  conn : Nat

/-- A request handler: its session, what it does from here on, and the connection its request came
from. -/
structure Running where
  sess : Nat
  prog : Handler
  source : Nat

/-- The thread of `listen_for_connections`; `accepted` and `added` hold the new session. -/
inductive Acceptor
  | listening
  | accepted (sess : Nat)
  | added (sess : Nat)

/-- The thread of `serve_forever` with its variables: the vector `ready`, the rest still to be
visited, the client, its session, and what was received from which connection. -/
inductive Server
  | removing
  | listing
  | selecting (peers : List Nat)
  | visiting (ready rest : List Nat)
  | receiving (ready rest : List Nat) (client sess : Nat)
  | flushing (ready rest : List Nat) (client sess : Nat) (received : Bytes) (source : Nat)
  | dispatching (ready rest : List Nat) (client sess : Nat) (received : Bytes) (source : Nat)
  | notified (ready rest : List Nat) (client : Nat)
  | constructing (ready rest : List Nat) (handler : Running)

inductive Event
  /-- An operation on the card's settings, with the peer port of the connection that asked for it. -/
  | effect (op : Device) (port : Nat)
  /-- Bytes of a request from one connection are sent or received on another. -/
  | exchanged (source conn : Nat)
  /-- A descriptor is closed; `fault` says that its own peer has hung up or made a mistake. -/
  | closed (conn : Nat) (fault : Bool)
deriving DecidableEq,Repr

/-- `table` are the open descriptors with their connections, `sessions` is `m_sessions`, objects are
numbered, and `log` has the latest event first. -/
structure State where
  conns : Nat
  peer : Nat → Peer
  pending : List Nat
  table : Nat → Option Nat
  made : Nat
  objects : Nat → Option Endpoint
  sessions : Nat → Option Nat
  acceptor : Acceptor
  server : Server
  handlers : List Running
  requestCount : Int
  crashed : Bool
  log : List Event

def init : State :=
  ⟨0,fun _ => ⟨0,[],false,false⟩,[],fun _ => none,0,fun _ => none,fun _ => none,.listening,
    .removing,[],0,false,[]⟩

/-- What the surroundings decide: whether `scif_poll` works, how many bytes a receive brings, what a
service answers. -/
inductive Choice
  | nothing
  | polled (works : Bool)
  | count (bytes : Option Nat)
  | device (answer : Except Failure Bytes)
  | rawData (answer : Except Failure RawData)
  | refreshed (answer : Except Failure Unit)

inductive Label
  | connect (port : Nat)
  | write (conn : Nat) (bytes : Bytes)
  | hangUp (conn : Nat)
  | accept (fd : Nat)
  | listen (choice : Choice)
  | serve (choice : Choice)
  | work (i : Nat) (choice : Choice)
  | destroy (object : Nat)

variable (s : State)

def State.faulty (conn : Nat) : Bool := (s.peer conn).hung || (s.peer conn).mistaken

variable (fd : Nat)

def scifClose : State :=
  match s.table fd with
  | none => s
  | some conn =>
    { s with table := update s.table fd none,log := .closed conn (s.faulty conn) :: s.log }

def State.setPeer (conn : Nat) (peer : Peer) : State := { s with peer := update s.peer conn peer }

variable (o : Nat)

def State.setObject (e : Option Endpoint) : State := { s with objects := update s.objects o e }

def shutdown : State :=
  match s.objects o with
  | none => s
  | some e => (scifClose s e.ep).setObject o (some { e with port := 0 })

def State.connOf : Option Nat := (s.objects o).bind (fun e => s.table e.ep)

/-- `scif_recv` of at most `limit` bytes: the bytes, or -1 where the descriptor is not open or the
peer has gone. -/
def receive (o limit : Nat) (choice : Choice) : Option (State × Option (Bytes × Nat)) :=
  match s.connOf o,choice with
  | none,.count none => some (s,none)
  | some conn,.count none => if (s.peer conn).hung then some (s,none) else none
  | some conn,.count (some k) =>
    let peer := s.peer conn
    if k ≤ limit ∧ k ≤ peer.inbox.length then
      some (s.setPeer conn { peer with inbox := peer.inbox.drop k },some (peer.inbox.take k,conn))
    else none
  | _,_ => none

def addSession : State :=
  match s.objects o with
  | none => s
  | some e => { s with sessions := update s.sessions e.ep (some o) }

def removeSession : State :=
  match s.objects o with
  | none => s
  | some e => { s with sessions := update s.sessions e.ep none }

/-- The descriptor is reported with `SCIF_POLLHUP`, `SCIF_POLLERR` or `SCIF_POLLNVAL`. -/
def State.invalid : Bool :=
  match s.table fd with
  | none => true
  | some conn => (s.peer conn).hung

def removeInvalid (works : Bool) : State :=
  if works then { s with sessions := fun fd => if s.invalid fd then none else s.sessions fd } else s

/-- `remove_invalid_sessions(fd)`; the descriptor 0 stands for none. -/
def removeInvalidAt : State :=
  if fd = 0 then removeInvalid s true
  else { s with sessions := update s.sessions fd none }

def State.setInProgress (inProgress : Bool) : State :=
  match s.objects o with
  | none => s
  | some e => s.setObject o (some { e with inProgress := inProgress })

/-- The operations that access registers or change settings. -/
def changes : Device → Bool
  | .isDeviceBusy => false
  | .windowFactory _ => false
  | .getSetting _ => false
  | _ => true

def State.exchange (source : Nat) (conn : Option Nat) : State :=
  match conn with
  | none => s
  | some conn => { s with log := .exchanged source conn :: s.log }

/-- What a handler asks next, in the thread that runs it. -/
def perform (h : Running) (choice : Choice) : Option (State × Running) :=
  match h.prog with
  | .done => none
  | .ask .queued next => some (s,{ h with prog := next () })
  | .ask .acquireRequest next =>
    if s.requestCount = 32 then some (s,{ h with prog := next false })
    else some ({ s with requestCount := s.requestCount + 1 },{ h with prog := next true })
  | .ask .releaseRequest next =>
    some ({ s with requestCount := s.requestCount - 1 },{ h with prog := next () })
  | .ask .isFromRoot next =>
    (s.objects h.sess).map (fun e => (s,{ h with prog := next (e.port < SCIF_ADMIN_PORT_END) }))
  | .ask (.getRawData _) next =>
    match choice with
    | .rawData answer => some (s,{ h with prog := next answer })
    | _ => none
  | .ask (.forceRefresh _) next =>
    match choice with
    | .refreshed answer => some (s,{ h with prog := next answer })
    | _ => none
  | .ask (.device op) next =>
    match choice with
    | .device answer =>
      some (if changes op then { s with log := .effect op (s.peer h.source).port :: s.log } else s,
        { h with prog := next answer })
    | _ => none
  | .ask (.send message) next =>
    some (s.exchange h.source (s.connOf h.sess),{ h with prog := next (scifEpSend message) })
  | .ask (.recv limit) next =>
    (receive s h.sess limit choice).map (fun (t,got) =>
      (t.exchange h.source (got.map (·.2)),{ h with prog := next (got.map (·.1)) }))
  | .ask .close next =>
    let peer := s.peer h.source
    some (shutdown (s.setPeer h.source { peer with mistaken := true }) h.sess,
      { h with prog := next () })

/-- The end of a handler: its destructor gives the session back. -/
def finish (h : Running) : State := addSession (s.setInProgress h.sess false) h.sess

def finished (h : Running) : Bool := h.prog matches .done

def listenStep (choice : Choice) : Option State :=
  match s.acceptor,choice with
  | .accepted o,.nothing => some { addSession s o with acceptor := .added o }
  | .added _,.polled works => some { removeInvalid s works with acceptor := .listening }
  | _,_ => none

def State.peers : List Nat :=
  (List.range s.made).filter (fun o => (s.objects o).any (fun e => s.sessions e.ep == some o))

/-- `select_read` finds the descriptor readable and without an error. -/
def State.readable : Bool :=
  (s.connOf o).any (fun conn => !(s.peer conn).inbox.isEmpty && !(s.peer conn).hung)

/-- The process dies and its descriptors go with it. -/
def crash : State :=
  { s with
    crashed := true
    table := fun _ => none
    log := ((List.range s.made).filterMap s.connOf).map
      (fun conn => .closed conn (s.faulty conn)) ++ s.log }

def serveStep (choice : Choice) : Option State :=
  match s.server,choice with
  | .removing,.polled works => some { removeInvalid s works with server := .listing }
  | .listing,.nothing =>
    if s.peers.isEmpty then some { s with server := .removing }
    else some { s with server := .selecting s.peers }
  | .selecting peers,.nothing =>
    let ready := peers.filter s.readable
    some { s with server := .visiting ready ready }
  | .visiting _ [],.nothing => some { s with server := .removing }
  | .visiting ready (client :: rest),.nothing =>
    (s.objects client).map (fun e =>
      match s.sessions e.ep with
      | none => crash s
      | some sess =>
        if (s.objects sess).any (·.inProgress) then { s with server := .visiting ready rest }
        else { s with server := .receiving ready rest client sess })
  | .receiving ready rest client sess,choice =>
    (s.objects client).bind (fun e => (receive s client sizeofReq choice).map (fun
      | (t,none) => { removeInvalidAt t e.ep with server := .visiting ready rest }
      | (t,some (received,source)) =>
        { t with server := .flushing ready rest client sess received source }))
  | .flushing ready rest client sess received source,.nothing =>
    match s.connOf client with
    | some conn =>
      let peer := s.peer conn
      if peer.inbox.isEmpty then some { s with
        server := .dispatching ready rest client sess received source }
      else
        let t := s.setPeer conn { peer with inbox := peer.inbox.drop 1,mistaken := true }
        some { shutdown t client with server := .visiting ready rest }
    | none => some { s with server := .dispatching ready rest client sess received source }
  | .dispatching ready rest client sess received source,.nothing =>
    if received.length = sizeofReq then
      let req := SystoolsdReq.ofBytes received
      if req.reqType = RESTART_SMBA ∧ !s.handlers.all finished then none
      else
        some { removeSession (s.setInProgress sess true) sess with
          server := .constructing ready rest ⟨sess,createRequest req,source⟩ }
    else some { s.exchange source (s.connOf client) with server := .notified ready rest client }
  | .notified ready rest _,.polled works =>
    some { removeInvalid s works with server := .visiting ready rest }
  | .constructing ready rest h,choice =>
    match h.prog with
    | .ask .queued next =>
      some { s with
        handlers := s.handlers ++ [{ h with prog := next () }],server := .visiting ready rest }
    | _ => (perform s h choice).map (fun (t,h) => { t with server := .constructing ready rest h })
  | _,_ => none

def workStep (i : Nat) (choice : Choice) : Option State :=
  match s.handlers[i]? with
  | none => none
  | some h =>
    if finished h then some { finish s h with handlers := s.handlers.eraseIdx i }
    else (perform s h choice).map (fun (t,h) => { t with handlers := s.handlers.set i h })

def Acceptor.holds : Acceptor → List Nat
  | .listening => []
  | .accepted o => [o]
  | .added o => [o]

def Server.holds : Server → List Nat
  | .removing => []
  | .listing => []
  | .selecting peers => peers
  | .visiting ready _ => ready
  | .receiving ready _ client sess => client :: sess :: ready
  | .flushing ready _ client sess _ _ => client :: sess :: ready
  | .dispatching ready _ client sess _ _ => client :: sess :: ready
  | .notified ready _ client => client :: ready
  | .constructing ready _ h => h.sess :: ready

/-- The last pointer to the object is gone. -/
def State.unreferenced (e : Endpoint) : Bool :=
  s.sessions e.ep != some o && !s.acceptor.holds.contains o && !s.server.holds.contains o &&
    !(s.handlers.map Running.sess).contains o

def clientStep : Label → Option State
  | .connect port =>
    some { s.setPeer s.conns ⟨port,[],false,false⟩ with
      conns := s.conns + 1,pending := s.pending ++ [s.conns] }
  | .write conn bytes =>
    if conn < s.conns ∧ (s.peer conn).hung = false then
      some (s.setPeer conn { s.peer conn with inbox := (s.peer conn).inbox ++ bytes })
    else none
  | .hangUp conn =>
    if conn < s.conns then some (s.setPeer conn { s.peer conn with hung := true }) else none
  | _ => none

/-- SCIF gives the new connection any number that is not open. -/
def acceptStep : Option State :=
  match s.acceptor,s.pending with
  | .listening,conn :: pending =>
    if (s.table fd).isNone then
      some { s.setObject s.made (some ⟨fd,(s.peer conn).port,false,conn⟩) with
        pending := pending
        table := update s.table fd (some conn)
        made := s.made + 1
        acceptor := .accepted s.made }
    else none
  | _,_ => none

def destroyStep : Option State :=
  match s.objects o with
  | none => none
  | some e => if s.unreferenced o e then some ((scifClose s e.ep).setObject o none) else none

def step (label : Label) : Option State :=
  if s.crashed then none
  else
    match label with
    | .accept fd => acceptStep s fd
    | .listen choice => listenStep s choice
    | .serve choice => serveStep s choice
    | .work i choice => workStep s i choice
    | .destroy o => destroyStep s o
    | label => clientStep s label

end Mpss.Systools.Daemon
