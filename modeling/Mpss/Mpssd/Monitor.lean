import Mathlib.Algebra.Order.Ring.Int

namespace Mpss.Mpssd.Monitor

def MONITOR_START : Nat := 1

/-- What the calls of `establish_connection` bring: the first message, a second endpoint, the port
received over it, and whether the answer could be sent. -/
structure Attempt where
  msg : Option Nat
  opens : Bool
  remotePort : Option Nat
  port : Nat
  sameNode : Bool
  sent : Bool

/-- The endpoints of a card, those that are open, and the one the driver gives out next. -/
structure MpssdInfo where
  recvEp : Option Nat
  sendEp : Option Nat
  opened : List Nat
  next : Nat

inductive Event
  | attempt (a : Attempt)
  | lost

variable (s : MpssdInfo)

def scifOpen : MpssdInfo := { s with opened := s.next :: s.opened,next := s.next + 1 }

def establishConnection (recvEp : Nat) (a : Attempt) : Bool × MpssdInfo :=
  if s.recvEp.isSome || s.sendEp.isSome then (false,s)
  else
    let s := { s with recvEp := some recvEp }
    if a.msg ≠ some MONITOR_START || !a.opens then (false,s)
    else (a.remotePort = some a.port && a.sameNode && a.sent,{ scifOpen s with sendEp := some s.next })

def closeScifConnection : MpssdInfo :=
  { s with
    recvEp := none,sendEp := none,opened := s.opened.filter fun e => s.recvEp ≠ some e ∧
      s.sendEp ≠ some e }

/-- A turn of `monitor_thread`: `scif_accept`, and what is done with the endpoint. -/
def accept (a : Attempt) : Bool × MpssdInfo :=
  let (established,t) := establishConnection (scifOpen s) s.next a
  (established,if established then t else closeScifConnection t)

/-- The thread of a connection closes it when it fails or stops. -/
def step : Event → MpssdInfo
  | .attempt a => (accept s a).2
  | .lost => closeScifConnection s

def start : MpssdInfo := ⟨none,none,[],0⟩

end Mpss.Mpssd.Monitor
