import Mpss.Scif.TempCache

namespace Mpss.Micscif.RmaList
open Scif.Window Scif.TempCache

/-- The walk from the window found on: the result and the windows unregistered. No result at the end
of the list is the `BUG_ON`. -/
def micscifRmaListUnregister (unregisterWindow : Nat → Int) :
    List ScifWindow → Int → Int → Option (Int × List Nat)
  | [],_,_ => none
  | w :: ws,offset,nrPages =>
    let loopNrPages := min (toInt32 ((w.endOffset - offset) / pageSize)) nrPages
    if unregisterWindow w.id ≠ 0 then some (unregisterWindow w.id,[w.id])
    else if nrPages - loopNrPages = 0 then some (0,[w.id])
    else (micscifRmaListUnregister unregisterWindow ws (offset + loopNrPages * pageSize)
      (nrPages - loopNrPages)).map (fun r => (r.1,w.id :: r.2))

def accepted (offset : Int) (len : Nat) : Prop :=
  len ≠ 0 ∧ (len : Int) % pageSize = 0 ∧ offset % pageSize = 0 ∧ ¬ s64 (offset + s64 len) < offset
deriving Decidable

/-- `__scif_unregister` on a connected endpoint; `micscif_query_window` has the loop of
`scif_query_window`. -/
def scifUnregister (regList : List ScifWindow) (offset : Int) (len : Nat)
    (unregisterWindow : Nat → Int) : Option (Int × List Nat) :=
  if accepted offset len then
    match queryFrom ⟨offset % 2 ^ 64,len,0,.full⟩ regList (offset % 2 ^ 64) len none with
    | .error err => some (err,[])
    | .ok none => none
    | .ok (some w) =>
      micscifRmaListUnregister unregisterWindow (regList.dropWhile (· ≠ w)) offset
        (toInt32 (len / 4096))
  else some (-einval,[])

/-- The loop of `micscif_query_tcw`, up to the first window that the request reaches. -/
def queryTcwLoop (req : TcwReq) : List TempWindow → Tcw
  | [] => .miss req none
  | w :: ws =>
    if req.vaForTemp < w.vaForTemp then
      if req.endVa < w.vaForTemp then .miss req none
      else if w.prot &&& req.prot ≠ req.prot then .miss req (some w)
      else
        let more := if w.endVa < req.endVa then 0 else w.endVa - req.endVa
        .miss { req with nrBytes := u64 (req.nrBytes + more : Nat) } (some w)
    else if w.endVa < req.vaForTemp then queryTcwLoop req ws
    else if w.prot &&& req.prot ≠ req.prot then .miss req (some w)
    else if w.endVa < req.endVa then
      .miss { req with vaForTemp := w.vaForTemp,nrBytes := u64 (req.endVa - w.vaForTemp) } (some w)
    else .hit w

def micscifQueryTcw (head : List TempWindow) (req : TcwReq) : Tcw :=
  match head.getLast? with
  | some w => if w.endVa < req.vaForTemp then .miss req none else queryTcwLoop req head
  | none => queryTcwLoop req head

/-- The same insertion as in `scif_insert_tcw`. -/
def micscifInsertTcw (w : TempWindow) (head : List TempWindow) : List TempWindow :=
  scifInsertTcw w head

end Mpss.Micscif.RmaList
