import Mathlib.Algebra.Order.Ring.Int

namespace Mpss.Micscif.UnregisterWindow

inductive OpState
  | idle
  | inProgress
  | completed
  | failed
deriving DecidableEq

/-- A self window and the threads in `micscif_unregister_window`. Not in the driver: whether
`ref_count` still holds the registration, and how often the window was taken off and queued for
clean-up. -/
structure Window where
  unregState : OpState
  refCount : Int
  waiting : Nat
  onList : Bool
  registered : Bool
  removed : Nat
deriving DecidableEq

variable (nrPages : Nat)

def init : Window := ⟨.idle,nrPages,0,true,true,0⟩

variable (w : Window)

def putPages : Window := { w with refCount := w.refCount - nrPages,registered := false }

def removeUnused : Window :=
  if w.refCount = 0 then { w with onList := false,removed := w.removed + 1 } else w

/-- What follows the `switch`. -/
def finish : Window :=
  removeUnused (if w.unregState = .completed ∧ w.refCount ≠ 0 then putPages nrPages w else w)

inductive Act
  | enter
  | wake
  | ack
  | nack
  | munmap

/-- A thread enters or goes on with the lock held. The peer answers once, and sends SCIF_MUNMAP only
after a NACK. -/
def step : Act → Option Window
  | .enter =>
    if w.onList then
      match w.unregState with
      | .idle | .inProgress =>
        some { w with unregState := .inProgress,refCount := w.refCount + 1,waiting := w.waiting + 1 }
      | .completed | .failed => some (finish nrPages w)
    else none
  | .wake =>
    if 0 < w.waiting ∧ w.unregState ≠ .inProgress then
      some (finish nrPages { w with refCount := w.refCount - 1,waiting := w.waiting - 1 })
    else none
  | .ack => if w.unregState = .inProgress then some { w with unregState := .completed } else none
  | .nack => if w.unregState = .inProgress then some { w with unregState := .failed } else none
  | .munmap =>
    if w.unregState = .failed ∧ w.registered then
      some (removeUnused (if w.refCount ≠ 0 then putPages nrPages w else w))
    else none

end Mpss.Micscif.UnregisterWindow
