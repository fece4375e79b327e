import Mpss.Scif.Ports

namespace Mpss.Scif.ConnFunc
open Scif.Window Scif.Ports

def econnrefused : Int := 111

def einprogress : Int := 115

/-- `conn_async_state`, which a blocking attempt sets to 0. -/
inductive AsyncConn
  | zero
  | idle
  | inprogress
  | flushWork
deriving DecidableEq

structure Conn where
  ep : Endpt
  async : AsyncConn

/-- The `SCIFEP_BOUND` case of `__scif_connect`, which `SCIFEP_UNBOUND` falls through to with
`err`. -/
def connectBound (err : Int) (async : AsyncConn) (nonBlock : Bool) : Int × AsyncConn :=
  match async with
  | .inprogress => (err,.flushWork)
  | .flushWork => (-einprogress,.flushWork)
  | .zero | .idle => (err,if nonBlock then .inprogress else .zero)

/-- The `switch` of `__scif_connect`. -/
def connectSwitch (ports : PortTable) (c : Conn) (nonBlock mem : Bool) : Int × Conn × PortTable :=
  match c.ep.state with
  | .zombie | .closing => (-einval,c,ports)
  | .disconnected =>
    if c.async = .inprogress then (0,{ c with async := .flushWork },ports) else (-einval,c,ports)
  | .listening | .cllisten => (-eopnotsupp,c,ports)
  | .connecting | .mapping =>
    (if c.async = .inprogress then -einprogress else -eisconn,c,ports)
  | .connected =>
    if c.async = .inprogress then (0,{ c with async := .flushWork },ports) else (-eisconn,c,ports)
  | .unbound =>
    let (tmp,ports) := scifGetNewPort ports mem
    let port := toU16 tmp
    if port = 0 then
      let (err,async) := connectBound (-enospc) c.async nonBlock
      (err,⟨{ c.ep with port := port },async⟩,ports)
    else
      let (err,async) := connectBound 0 .idle nonBlock
      (err,⟨{ c.ep with port := port,held := some port },async⟩,ports)
  | .bound =>
    let (err,async) := connectBound 0 c.async nonBlock
    (err,⟨c.ep,async⟩,ports)

/-- `__scif_connect` up to where it waits for an earlier attempt or calls `scif_conn_func`. -/
def connectStart (ports : PortTable) (c : Conn) (node : Nat)
    (nonBlock mem : Bool) : Int × Conn × PortTable :=
  let (err,c,ports) := connectSwitch ports c nonBlock mem
  if err ≠ 0 ∨ c.async = .flushWork then (err,c,ports)
  else
    (if c.async = .inprogress then -einprogress else 0,
      ⟨{ c.ep with state := .connecting,remoteNode := node,call := .connecting },c.async⟩,ports)

/-- `SCIF_CNCT_GNT` and `SCIF_CNCT_REJ`. -/
inductive Answer
  | granted
  | rejected
deriving DecidableEq

/-- `scif_cnctgnt` and `scif_cnctrej`. -/
def cnctAnswer (ep : Endpt) (a : Answer) : Endpt :=
  if ep.state = .connecting then
    { ep with state := match a with | .granted => .mapping | .rejected => .bound }
  else ep

/-- What the steps of `scif_conn_func` come to. `early` came before the request was sent, `answers`
until the wait timed out or ended with `left` jiffies. -/
structure ConnSteps where
  dmaErr : Int
  qpErr : Int
  early : List Answer
  peer : Bool
  sendErr : Int
  answers : List Answer
  left : Int
  respErr : Int
  ackErr : Int

/-- `scif_conn_func` from its wait on. -/
def connWait (o : ConnSteps) (ep : Endpt) : Int × Endpt :=
  let ep := o.answers.foldl cnctAnswer ep
  let ep := if ep.state = .connecting then { ep with state := .bound } else ep
  if ep.state = .mapping then
    if o.respErr ≠ 0 then (o.respErr,{ ep with state := .bound })
    else if o.ackErr ≠ 0 then (o.ackErr,{ ep with state := .bound })
    else (0,{ ep with state := .connected,list := .connected })
  else if ep.state = .bound then (-econnrefused,ep)
  else (o.left,ep)

/-- The result of `scif_conn_func` and the endpoint when the call has returned. -/
def scifConnFunc (o : ConnSteps) (ep : Endpt) : Int × Endpt :=
  let ep := { ep with call := .idle }
  if o.dmaErr ≠ 0 then (o.dmaErr,{ ep with state := .bound })
  else if o.qpErr ≠ 0 then (o.qpErr,{ ep with state := .bound })
  else
    let ep := o.early.foldl cnctAnswer ep
    if o.peer = false then (-enodev,ep)
    else if o.sendErr ≠ 0 then (o.sendErr,ep)
    else connWait o ep

end Mpss.Scif.ConnFunc
