import Mathlib.Algebra.Order.Ring.Int

namespace Mpss.Systools.Connection

/-- A SCIF send that takes bytes takes at least one. -/
inductive SendResult
  | accepted (others : Nat)
  | reset
  | error
deriving DecidableEq

/-- What the calls of one turn answer: a send, and after a reset `open` and a second send. -/
structure Turn where
  first : SendResult
  opens : Bool
  second : SendResult

/-- `taken` are the bytes accepted on the connection since it was opened or the call began;
`refused` tells that it did not open again. -/
structure ScifConnection where
  isOpen : Bool
  taken : List UInt8
  refused : Bool

def close (c : ScifConnection) : ScifConnection := { c with isOpen := false }

def reopen (c : ScifConnection) (opens : Bool) : ScifConnection :=
  if c.isOpen then c else if opens then ⟨true,[],false⟩ else { c with refused := true }

def sendOnce (t : Turn) (c : ScifConnection) : SendResult × ScifConnection :=
  if t.first = .reset then
    let c := reopen (close c) t.opens
    (if c.isOpen then t.second else .error,c)
  else (t.first,c)

/-- `none` while the loop waits for the next send. -/
def send : List Turn → List UInt8 → ScifConnection → Option (Int × ScifConnection)
  | _,[],c => some (0,c)
  | [],_ :: _,_ => none
  | t :: turns,b :: p,c =>
    match sendOnce t c with
    | (.accepted k,c) => send turns (p.drop k) { c with taken := c.taken ++ b :: p.take k }
    | (_,c) => some (-1,c)

end Mpss.Systools.Connection
