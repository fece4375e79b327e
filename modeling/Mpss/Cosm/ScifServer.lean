import Mathlib.Algebra.Order.Ring.Int

namespace Mpss.Cosm.ScifServer

/-- The size of `struct cosm_msg`: eight bytes of id, and a time whose first byte is the state. -/
def msgSize : Nat := 24

def HEARTBEAT : List UInt8 := [3,0,0,0,0,0,0,0]

def STATE_CHANGE : List UInt8 := [4,0,0,0,0,0,0,0]

def MIC_STATE_ERROR : UInt8 := 1

/-- What the host acts on. -/
def idState (msg : List UInt8) : List UInt8 × UInt8 := (msg.take 8,msg.getD 8 0)

inductive End
  | received
  | hangUp
  | heartbeat
  | sendTime
deriving DecidableEq

/-- The bytes not yet received, the variable `msg`, and what the host has acted on. -/
structure Server where
  stream : List UInt8
  msg : List UInt8
  acted : List (List UInt8 × UInt8)
  ended : Option End

/-- `cosm_scif_recv` is called, its variable holding anything, or receives `rc` bytes, one or
more. -/
inductive Event
  | call (msg : List UInt8)
  | recv (rc : Nat)

def step (s : Server) (e : Event) : Server :=
  if s.ended.isSome then s
  else
    match e with
    | .call msg => { s with msg }
    | .recv rc =>
      let msg := s.stream.take rc ++ s.msg.drop rc
      { stream := s.stream.drop rc,msg
        acted := s.acted ++ [idState msg]
        ended := if (idState msg).2 = MIC_STATE_ERROR then some .received else none }

/-- `time` tells whether `cosm_send_time` has sent the time, `last` how the last poll ends the
loop. -/
def cosmScifWork (time : Bool) (stream : List UInt8) (es : List Event) (last : Option End) : Server :=
  let s := es.foldl step ⟨stream,[],[],if time then none else some .sendTime⟩
  { s with ended := s.ended <|> last }

end Mpss.Cosm.ScifServer
