import Mpss.Library.Counting
import Mpss.Scif.Window

namespace Mpss.Scif.Ports
open Library.Counting Scif.Window

def scifAdminPortEnd : Nat := 1024

def scifPortRsvd : Nat := 1088

def scifPortCount : Nat := 0x10000

/-- `scif_ports`: the `ref_cnt` of every port in use. -/
abbrev PortTable := Refs Nat

variable (ports : PortTable)

/-- The lowest free number of the range, as `idr_alloc` picks it. -/
def idrAlloc (start last : Nat) : Option Nat :=
  (List.range' start (last - start)).find? (fun id => (ports id).isNone)

/-- `__scif_get_port`; `mem` says whether the allocations succeed. -/
def scifGetPortIn (start last : Nat) (mem : Bool) : Int × PortTable :=
  if mem then
    match idrAlloc ports start last with
    | some id => (id,ports.reserve id)
    | none => (-enospc,ports)
  else (-enomem,ports)

def scifRsrvPort (port : Nat) (mem : Bool) : Int × PortTable :=
  scifGetPortIn ports port (port + 1) mem

def scifGetNewPort (mem : Bool) : Int × PortTable :=
  scifGetPortIn ports (scifPortRsvd + 1) scifPortCount mem

def scifGetPort (id : Nat) : PortTable := if id = 0 then ports else ports.get id

def scifPutPort (id : Nat) : PortTable := if id = 0 then ports else ports.put id

/-- Port numbers are stored in a `u16`. -/
def toU16 (n : Int) : Nat := (n % 2 ^ 16).toNat

/-- The list that an endpoint's `list` node is linked in. -/
inductive EpList
  | none
  | listen
  | connected
  | disconnected
  | zombie
deriving DecidableEq

/-- The call in progress. A closing endpoint remembers `oldstate` and whether the part of
`scif_close` before the port has run. -/
inductive Call
  | idle
  | connecting
  | accepting
  | closing (oldstate : EpState) (detached : Bool)
  | gone
deriving DecidableEq

/-- `held` is the port whose reference the endpoint took and has not given up. -/
structure Endpt where
  state : EpState
  port : Nat
  remoteNode : Nat
  list : EpList
  call : Call
  discntAckDue : Bool
  held : Option Nat

def scifOpen : Endpt :=
  { state := .unbound,port := 0,remoteNode := 0,list := .none,call := .idle
    discntAckDue := false,held := none }

variable (ep : Endpt)

/-- The result, the endpoint and the ports after `scif_bind`. -/
def scifBind (pn : Nat) (admin mem : Bool) : Int × Endpt × PortTable :=
  if pn ≠ 0 ∧ pn < scifAdminPortEnd ∧ admin = false then (-eacces,ep,ports)
  else if ep.state = .bound then (-einval,ep,ports)
  else if ep.state ≠ .unbound then (-eisconn,ep,ports)
  else if pn ≠ 0 then
    let (tmp,ports) := scifRsrvPort ports pn mem
    if tmp ≠ pn then (-einval,ep,ports)
    else (pn,{ ep with state := .bound,port := pn,held := some pn },ports)
  else
    let (tmp,ports) := scifGetNewPort ports mem
    let pn := toU16 tmp
    if pn = 0 then (-enospc,ep,ports)
    else (pn,{ ep with state := .bound,port := pn,held := some pn },ports)

def scifListen : Int × Endpt :=
  match ep.state with
  | .zombie | .closing | .cllisten | .unbound | .disconnected => (-einval,ep)
  | .listening | .connected | .connecting | .mapping => (-eisconn,ep)
  | .bound => (0,{ ep with state := .listening,list := .listen })

def scifFlush : Endpt :=
  if ep.state = .listening then { ep with state := .cllisten } else ep

/-- `scif_connect` up to the start of `scif_conn_func`. -/
def scifConnect (node : Nat) (mem : Bool) : Int × Endpt × PortTable :=
  match ep.state with
  | .zombie | .closing | .disconnected => (-einval,ep,ports)
  | .listening | .cllisten => (-eopnotsupp,ep,ports)
  | .connecting | .mapping | .connected => (-eisconn,ep,ports)
  | .unbound =>
    let (tmp,ports) := scifGetNewPort ports mem
    let port := toU16 tmp
    if port = 0 then (-enospc,{ ep with port := port },ports)
    else
      (0,{ ep with port := port,held := some port,state := .connecting,remoteNode := node
                   call := .connecting },ports)
  | .bound => (0,{ ep with state := .connecting,remoteNode := node,call := .connecting },ports)

/-- The endpoint that `scif_accept` on `lep` makes for a connection request from `node`. -/
def acceptedEndpt (lep : Endpt) (node : Nat) : Endpt :=
  { state := .connecting,port := lep.port,remoteNode := node,list := .none,call := .accepting
    discntAckDue := false,held := none }

/-- `scif_accept` from its wake-up on: a grant that was refused frees the endpoint. -/
def acceptReturn : Endpt × PortTable :=
  if ep.state = .closing then ({ ep with call := .gone },ports)
  else ({ ep with call := .idle,held := some ep.port },scifGetPort ports ep.port)

def disconnectConnected : Endpt × PortTable :=
  ({ ep with state := .disconnected,list := .disconnected,held := none },scifPutPort ports ep.port)

def scifDiscntAck : Endpt × PortTable :=
  ({ ep with state := .disconnected,discntAckDue := false,held := none },scifPutPort ports ep.port)

/-- `scif_disconnect_ep`; `sent` says whether `SCIF_DISCNCT` could be sent. -/
def scifDisconnectEp (sent : Bool) : Endpt :=
  if ep.list = .connected then { ep with list := .none,discntAckDue := sent }
  else if ep.list = .disconnected then { ep with list := .none }
  else ep

/-- The `switch (oldstate)` of `scif_close`. -/
def closeDetach (oldstate : EpState) (sent : Bool) : Endpt :=
  match oldstate with
  | .zombie | .disconnected => if ep.list = .disconnected then { ep with list := .none } else ep
  | .unbound | .bound | .connecting => ep
  | .mapping | .connected | .closing => scifDisconnectEp ep sent
  | .listening | .cllisten => if ep.list = .listen then { ep with list := .none } else ep

/-- The end of `scif_close`. -/
def closeRelease (oldstate : EpState) : Endpt × PortTable :=
  ({ ep with state := .zombie,list := .zombie,call := .gone
             held := if oldstate ≠ .disconnected then none else ep.held },
    if oldstate ≠ .disconnected then scifPutPort ports ep.port else ports)

/-- What may happen to one endpoint: calls, the messages `granted`, `rejected`, `grantAcked`,
`grantNacked`, `discnct` and `discntAck`, and `refused`, `abandoned` and `established` as ends of
`scif_conn_func`. -/
inductive EpAct
  | bind (pn : UInt16) (admin mem : Bool)
  | listen
  | flush
  | connect (node : Nat) (mem : Bool)
  | granted
  | rejected
  | refused
  | abandoned
  | established
  | acceptFailed
  | grantAcked
  | grantNacked
  | acceptReturn
  | close
  | detach (sent : Bool)
  | release
  | discnct
  | discntAck
  | invalidate (node : Nat)

def Endpt.act : EpAct → Option (Endpt × PortTable)
  | .bind pn admin mem =>
    if ep.call = .idle then some (scifBind ports ep pn.toNat admin mem).2 else none
  | .listen => if ep.call = .idle then some ((scifListen ep).2,ports) else none
  | .flush => if ep.call = .idle then some (scifFlush ep,ports) else none
  | .connect node mem => if ep.call = .idle then some (scifConnect ports ep node mem).2 else none
  | .granted =>
    if (ep.call = .idle ∨ ep.call = .connecting) ∧ ep.state = .connecting then
      some ({ ep with state := .mapping },ports)
    else none
  | .rejected =>
    if (ep.call = .idle ∨ ep.call = .connecting) ∧ ep.state = .connecting then
      some ({ ep with state := .bound },ports)
    else none
  | .refused =>
    if ep.call = .connecting then some ({ ep with state := .bound,call := .idle },ports) else none
  | .abandoned => if ep.call = .connecting then some ({ ep with call := .idle },ports) else none
  | .established =>
    if ep.call = .connecting ∧ ep.state = .mapping then
      some ({ ep with state := .connected,list := .connected,call := .idle },ports)
    else none
  | .acceptFailed =>
    if ep.call = .accepting ∧ ep.state = .connecting then some ({ ep with call := .gone },ports)
    else none
  | .grantAcked =>
    if ep.call = .accepting ∧ ep.state = .connecting then
      some ({ ep with state := .connected,list := .connected },ports)
    else none
  | .grantNacked =>
    if ep.call = .accepting ∧ ep.state = .connecting then some ({ ep with state := .closing },ports)
    else none
  | .acceptReturn =>
    if ep.call = .accepting ∧ ep.state ≠ .connecting then some (Ports.acceptReturn ports ep) else none
  | .close =>
    if ep.call = .idle then some ({ ep with state := .closing,call := .closing ep.state false },ports)
    else none
  | .detach sent =>
    match ep.call with
    | .closing oldstate false =>
      some ({ closeDetach ep oldstate sent with call := .closing oldstate true },ports)
    | _ => none
  | .release =>
    match ep.call with
    | .closing oldstate true => some (closeRelease ports ep oldstate)
    | _ => none
  | .discnct => if ep.list = .connected then some (disconnectConnected ports ep) else some (ep,ports)
  | .discntAck => if ep.discntAckDue then some (scifDiscntAck ports ep) else none
  | .invalidate node =>
    if ep.list = .connected ∧ ep.remoteNode = node then some (disconnectConnected ports ep) else none

structure Node where
  ports : PortTable
  eps : List Endpt

def Node.init : Node := { ports := fun _ => none,eps := [] }

inductive Act
  | open
  | accept (i node : Nat)
  | on (i : Nat) (a : EpAct)

def Node.step (s : Node) : Act → Option Node
  | .open => some { s with eps := s.eps ++ [scifOpen] }
  | .accept i node =>
    match s.eps[i]? with
    | some lep =>
      if lep.call = .idle ∧ lep.state = .listening then
        some { s with eps := s.eps ++ [acceptedEndpt lep node] }
      else none
    | none => none
  | .on i a =>
    match s.eps[i]? with
    | some ep => (ep.act s.ports a).map (fun (ep',ports') => ⟨ports',s.eps.set i ep'⟩)
    | none => none

end Mpss.Scif.Ports
