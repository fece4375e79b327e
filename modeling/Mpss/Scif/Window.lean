import Mathlib.Algebra.Order.Ring.Int

namespace Mpss.Scif.Window

/-- `enum scif_epd_state`. -/
inductive EpState
  | unbound
  | bound
  | listening
  | connected
  | connecting
  | mapping
  | closing
  | cllisten
  | disconnected
  | zombie
deriving DecidableEq,Repr

def enomem : Int := 12
def eacces : Int := 13
def enodev : Int := 19
def einval : Int := 22
def enospc : Int := 28
def eopnotsupp : Int := 95
def eaddrinuse : Int := 98
def eisconn : Int := 106
def enotconn : Int := 107

def pageShift : Nat := 12

def pageSize : Int := 4096

def enxio : Int := 6

def eperm : Int := 1

def toInt32 (n : Int) : Int := (n + 2 ^ 31) % 2 ^ 32 - 2 ^ 31

inductive UnregState
  | notInitiated
  | requested
  | accepted
  | denied
deriving DecidableEq

/-- How far a request may reach over the windows of a list. -/
inductive WindowType
  | part
  | single
  | full
deriving DecidableEq

/-- The fields of `struct scif_window` that the registration lists use; `id` stands for
its address. -/
structure ScifWindow where
  id : Nat
  offset : Int
  nrPages : Int
  prot : Nat
  mappedPages : Int
  unregState : UnregState
deriving DecidableEq

def ScifWindow.endOffset (w : ScifWindow) : Int := w.offset + w.nrPages * pageSize

structure ScifRmaReq where
  offset : Int
  nrBytes : Nat
  prot : Nat
  type : WindowType

/-- The loop of `scif_query_window`, with the bytes left and the first window found. -/
def queryFrom (req : ScifRmaReq) : List ScifWindow → Int → Nat → Option ScifWindow →
    Except Int (Option ScifWindow)
  | [],_,_,_ => .error (-enxio)
  | w :: ws,offset,left,out =>
    if offset < w.offset then .error (-enxio)
    else if w.endOffset ≤ offset then queryFrom req ws offset left out
    else if w.prot &&& req.prot ≠ req.prot then .error (-eperm)
    else
      let out := if left = req.nrBytes then some w else out
      let tmpMin := min (w.endOffset - offset).toNat left
      if left - tmpMin = 0 then
        match req.type with
        | .part | .single => .ok out
        | .full => if offset + tmpMin = w.endOffset then .ok out else .error (-enxio)
      else if req.type = .single then .error (-enxio)
      else queryFrom req ws (offset + tmpMin) (left - tmpMin) out

/-- The window that the request starts in, or the error. -/
def scifQueryWindow (head : List ScifWindow) (req : ScifRmaReq) : Except Int (Option ScifWindow) :=
  if req.nrBytes = 0 then .error (-einval) else queryFrom req head req.offset req.nrBytes none

/-- `scif_insert_window`: behind the last window, from the front, that does not start later. -/
def scifInsertWindow (w : ScifWindow) : List ScifWindow → List ScifWindow
  | [] => [w]
  | v :: vs => if w.offset < v.offset then w :: v :: vs else v :: scifInsertWindow w vs

end Mpss.Scif.Window
