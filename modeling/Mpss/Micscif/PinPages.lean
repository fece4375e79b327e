import Mathlib.Algebra.Order.Ring.Int

namespace Mpss.Micscif.PinPages

/-- The page array, the references taken on the page of each entry and not dropped, and the pinned
pages of the `mm`. -/
structure Pins where
  filled : Nat → Bool
  refs : Nat → Int
  pinnedVm : Int

/-- How one attempt ends: whether the limit check lets it pass, and how many pages `get_user_pages`
pins. -/
structure Attempt (nrPages : Nat) where
  granted : Bool
  pinned : Fin (nrPages + 1)

def addVm (ulimit : Bool) (n : Int) (p : Pins) : Pins :=
  { p with pinnedVm := if ulimit then p.pinnedVm + n else p.pinnedVm }

def getUserPages (n : Nat) (p : Pins) : Pins :=
  { p with filled := fun i => decide (i < n) || p.filled i
           refs := fun i => if i < n then p.refs i + 1 else p.refs i }

/-- The first `n` entries that are not null give up a reference. -/
def putPages (n : Nat) (p : Pins) : Pins :=
  { p with refs := fun i => if i < n ∧ p.filled i then p.refs i - 1 else p.refs i }

variable (nrPages : Nat)

/-- From the label `retry` on: whether all pages are pinned. `rollback` is what happens when they
are not. -/
def attempt (ulimit : Bool) (a : Attempt nrPages) (rollback : Pins → Bool × Pins) (p : Pins) :
    Bool × Pins :=
  if ulimit && !a.granted then (false,putPages nrPages p)
  else
    let p := getUserPages a.pinned (addVm ulimit nrPages p)
    if a.pinned = nrPages then (true,p) else rollback (addVm ulimit (-nrPages) p)

/-- `upgrade` when `SCIF_PROT_READ` alone was asked for: the first attempt is for writing. -/
def scifPinPages (ulimit upgrade : Bool) (a b : Attempt nrPages) (p : Pins) : Bool × Pins :=
  attempt nrPages ulimit a (fun p =>
    if upgrade then attempt nrPages ulimit b (fun p => (false,putPages nrPages p))
      (putPages a.pinned p)
    else (false,putPages nrPages p)) p

/-- Pinned pages with those who hold them, and how often `micscif_destroy_pinned_pages` has run. -/
structure Pages where
  holders : Nat
  refCount : Int
  destroyed : Nat
  pins : Pins

def micscifDestroyPinnedPages (s : Pages) : Pages :=
  { s with destroyed := s.destroyed + 1,pins := putPages nrPages s.pins }

inductive Use
  | register
  | release

def s32 (n : Int) : Int := n.bmod (2 ^ 32)

/-- `release` is `scif_unpin_pages` or the destruction of a window. -/
def use (s : Pages) : Use → Option Pages
  | .register =>
    if s.refCount = 0 then none else some { s with
      holders := s.holders + 1,refCount := s32 (s.refCount + nrPages) }
  | .release =>
    if s.holders = 0 then none
    else
      let ret := s32 (s.refCount - nrPages)
      let s := { s with holders := s.holders - 1,refCount := ret }
      some (if ret = 0 then micscifDestroyPinnedPages nrPages s else s)

def pinned (p : Pins) : Pages := ⟨1,nrPages,0,p⟩

end Mpss.Micscif.PinPages
