import Mpss.Scif.Window

namespace Mpss.Scif.Registration
open Scif.Window

inductive OpState
  | idle
  | inProgress
  | completed
  | failed
deriving DecidableEq

/-- Where a call is. `requested` and `pinned` come before and after the pages are pinned,
`incomplete` when they could not be; `returned 0` stands for the offset. -/
inductive Pc
  | requested
  | pinned
  | incomplete
  | waiting
  | prepared
  | registering
  | returned (err : Int)
deriving DecidableEq

/-- A call of `scif_register` or `scif_register_pinned_pages` with its self window. -/
structure Reg where
  pc : Pc
  pinErr : Int
  alloc : OpState
  vaddr : Nat
  mapErr : Bool
  regState : OpState

/-- A window that the peer allocated: how often it was inserted, destroyed, and used by a message
after that. -/
structure RemoteWindow where
  inserted : Nat
  destroyed : Nat
  stale : Nat
deriving DecidableEq

inductive Msg
  | allocReq (reg : Nat)
  | allocGnt (reg vaddr : Nat)
  | allocRej (reg : Nat)
  | register (vaddr reg : Nat)
  | registerAck (reg : Nat)
  | registerNack (reg : Nat)
  | freeVirt (vaddr : Nat)
deriving DecidableEq

/-- Both nodes. Calls are numbered, and the peer's windows by the order of their allocation. -/
structure Exchange where
  regs : List Reg
  windows : List RemoteWindow
  inFlight : List Msg
  connected : Bool
  peerConnected : Bool

def Exchange.init : Exchange :=
  { regs := [],windows := [],inFlight := [],connected := true,peerConnected := true }

variable (s : Exchange)

def Exchange.send (m : Msg) : Exchange := { s with inFlight := m :: s.inFlight }

variable (i : Nat) (r : Reg)

def Exchange.setReg : Exchange := { s with regs := s.regs.set i r }

def scifSendAllocRequest (pc : Pc) : Exchange :=
  let t : Exchange := { s with regs := s.regs ++ [⟨pc,0,.inProgress,0,false,.idle⟩] }
  t.send (.allocReq s.regs.length)

def scifDestroyIncompleteWindow : Exchange :=
  let t := s.setReg i { r with pc := .returned r.pinErr }
  if r.alloc = .completed then t.send (.freeVirt r.vaddr) else t

/-- When the mapping fails, the result of the send is what the caller sees. -/
def scifPrepRemoteWindow : Exchange :=
  if r.alloc = .failed then s.setReg i { r with pc := .returned (-enomem) }
  else if r.mapErr then
    if s.connected then (s.setReg i { r with pc := .prepared }).send (.freeVirt r.vaddr)
    else s.setReg i { r with pc := .returned (-enotconn) }
  else s.setReg i { r with pc := .prepared }

def scifSendScifRegister : Exchange :=
  if s.connected then
    (s.setReg i { r with pc := .registering,regState := .inProgress }).send (.register r.vaddr i)
  else (s.setReg i { r with pc := .returned (-enotconn) }).send (.freeVirt r.vaddr)

/-- The end of `scif_send_scif_register` and of the call. -/
def scifRegisterDone : Exchange :=
  s.setReg i { r with pc := .returned (if r.regState = .failed then -enotconn else 0) }

variable (w : RemoteWindow)

/-- A message names the window. -/
def RemoteWindow.use : RemoteWindow :=
  { w with stale := if 0 < w.destroyed then w.stale + 1 else w.stale }

def RemoteWindow.insert : RemoteWindow := { w.use with inserted := w.inserted + 1 }

def RemoteWindow.destroy : RemoteWindow := { w.use with destroyed := w.destroyed + 1 }

def scifAllocReq (mem : Bool) : Exchange :=
  if mem then
    let t : Exchange := { s with windows := s.windows ++ [⟨0,0,0⟩] }
    t.send (.allocGnt i s.windows.length)
  else s.send (.allocRej i)

def scifFreeVirt (vaddr : Nat) : Exchange :=
  { s with windows := s.windows.modify vaddr RemoteWindow.destroy }

def scifRecvReg (vaddr i : Nat) : Exchange :=
  if s.peerConnected then
    let t : Exchange := { s with windows := s.windows.modify vaddr RemoteWindow.insert }
    t.send (.registerAck i)
  else
    let t : Exchange := { s with windows := s.windows.modify vaddr RemoteWindow.destroy }
    t.send (.registerNack i)

def handle (mem : Bool) : Msg → Exchange
  | .allocReq i => scifAllocReq s i mem
  | .allocGnt i vaddr =>
    { s with regs := s.regs.modify i (fun r => { r with alloc := .completed,vaddr := vaddr }) }
  | .allocRej i => { s with regs := s.regs.modify i (fun r => { r with alloc := .failed }) }
  | .register vaddr i => scifRecvReg s vaddr i
  | .registerAck i => { s with regs := s.regs.modify i (fun r => { r with regState := .completed }) }
  | .registerNack i => { s with regs := s.regs.modify i (fun r => { r with regState := .failed }) }
  | .freeVirt vaddr => scifFreeVirt s vaddr

inductive Act
  | register
  | registerPinned
  | pin (i : Nat) (err : Int)
  | map (i : Nat) (ok : Bool)
  | destroyIncomplete (i : Nat)
  | prepared (i : Nat)
  | sendRegister (i : Nat)
  | registered (i : Nat)
  | deliver (m : Msg) (mem : Bool)
  | disconnect
  | peerDisconnect

/-- Go on with a call that is at `pc`. -/
def Exchange.at (pc : Pc) (f : Reg → Option Exchange) : Option Exchange :=
  match s.regs[i]? with
  | some r => if r.pc = pc then f r else none
  | none => none

def Exchange.step : Act → Option Exchange
  | .register => some (scifSendAllocRequest s .requested)
  | .registerPinned => some (scifSendAllocRequest s .pinned)
  | .pin i err => s.at i .requested (fun r =>
      some (s.setReg i { r with pc := if err = 0 then .pinned else .incomplete,pinErr := err }))
  | .map i ok => s.at i .pinned (fun r => some (s.setReg i { r with pc := .waiting,mapErr := !ok }))
  | .destroyIncomplete i => s.at i .incomplete (fun r =>
      if r.alloc = .inProgress then none else some (scifDestroyIncompleteWindow s i r))
  | .prepared i => s.at i .waiting (fun r =>
      if r.alloc = .inProgress then none else some (scifPrepRemoteWindow s i r))
  | .sendRegister i => s.at i .prepared (fun r => some (scifSendScifRegister s i r))
  | .registered i => s.at i .registering (fun r =>
      if r.regState = .inProgress then none else some (scifRegisterDone s i r))
  | .deliver m mem =>
    if m ∈ s.inFlight then some (handle { s with inFlight := s.inFlight.erase m } mem m) else none
  | .disconnect => if s.connected then some { s with connected := false } else none
  | .peerDisconnect => if s.peerConnected then some { s with peerConnected := false } else none

/-- A new call, not a step of one that is under way. -/
def Act.isCall : Act → Bool
  | .register | .registerPinned => true
  | _ => false

end Mpss.Scif.Registration
