import Mathlib.Data.List.Basic

namespace Mpss.Micscif.ProxyDma

inductive OpState
  | idle
  | inProgress
  | completed
deriving DecidableEq

/-- Where a call of `micscif_proxy_dma` is; at `error_init_va` with the result it returns. -/
inductive Stage
  | sending
  | waiting
  | errorInitVa (ok : Bool)
deriving DecidableEq

/-- An endpoint with its peer: the word at `proxy_dma_va`, the call that has set it, the requests
that the peer has not completed, the transfers it has executed, and the results of the calls. -/
structure Endpt where
  word : OpState
  call : Option (Nat × Stage)
  calls : Nat
  outstanding : List Nat
  executed : List Nat
  returned : List (Nat × Bool)
deriving DecidableEq

def init : Endpt := ⟨.idle,none,0,[],[],[]⟩

/-- `peer` is the write of the data and of `OP_COMPLETED`, or a `__scif_writeto` that fails. -/
inductive Act
  | call
  | send (ok : Bool)
  | see
  | timeOut
  | store (ok : Bool)
  | peer (ok : Bool)

/-- What the call does from a stage on. -/
def at_ (s : Endpt) (stage : Stage) (f : Nat → Option Endpt) : Option Endpt :=
  match s.call with
  | some (id,now) => if now = stage then f id else none
  | none => none

/-- A call that finds another word than `OP_IDLE` returns `-EBUSY` and changes nothing. -/
def step (s : Endpt) : Act → Option Endpt
  | .call =>
    if s.word = .idle then some { s with
      word := .inProgress,call := some (s.calls,.sending),calls := s.calls + 1 }
    else none
  | .send ok => at_ s .sending (fun id =>
    if ok then some { s with call := some (id,.waiting),outstanding := s.outstanding ++ [id] }
    else some { s with call := some (id,.errorInitVa false) })
  | .see => at_ s .waiting (fun id =>
    if s.word = .completed then some { s with call := some (id,.errorInitVa true) } else none)
  | .timeOut => at_ s .waiting (fun id => some { s with call := some (id,.errorInitVa false) })
  | .store ok => at_ s (.errorInitVa ok) (fun id =>
    some { s with word := .idle,call := none,returned := s.returned ++ [(id,ok)] })
  | .peer ok =>
    match s.outstanding with
    | [] => none
    | id :: rest =>
      if ok then some { s with word := .completed,outstanding := rest,executed := s.executed ++ [id] }
      else some { s with outstanding := rest }

end Mpss.Micscif.ProxyDma
