import Mpss.Scif.Mapping
import Mpss.Scif.Transfer

namespace Mpss.Scif.Unregister
open Scif.Mapping Scif.Transfer Scif.Window

/-- The loop of `scif_rma_list_unregister`: its result, the list, and the windows for which
`SCIF_UNREGISTER` was sent, with `sendErr`. -/
def listUnregister (offset endReq : Int) (sendErr : Nat → Int) :
    List ScifWindow → Int → Int × List ScifWindow × List Nat
  | [],err => (err,[],[])
  | w :: ws,err =>
    if endReq ≤ w.offset then (err,w :: ws,[])
    else if w.endOffset ≤ offset then
      let (err',ws',sent) := listUnregister offset endReq sendErr ws err
      (err',w :: ws',sent)
    else if w.offset < offset ∧ offset < w.endOffset then (-einval,w :: ws,[])
    else if endReq < w.endOffset then (-einval,w :: ws,[])
    else if w.unregState = .notInitiated then
      let (err',ws',sent) := listUnregister offset endReq sendErr ws (sendErr w.id)
      if sendErr w.id = 0 then (err',{ w with unregState := .requested } :: ws',w.id :: sent)
      else (err',w :: ws',sent)
    else
      let (err',ws',sent) := listUnregister offset endReq sendErr ws 0
      (err',w :: ws',sent)

variable (regList : List ScifWindow)

def scifRmaListUnregister (offset nrPages : Int) (sendErr : Nat → Int) :
    Int × List ScifWindow × List Nat :=
  listUnregister offset (offset + nrPages * pageSize) sendErr regList 0

def scifUnregister (offset : Int) (len : Nat) (sendErr : Nat → Int) :
    Int × List ScifWindow × List Nat :=
  if len = 0 ∨ len % 4096 ≠ 0 ∨ offset % pageSize ≠ 0 ∨ 2 ^ 63 ≤ offset + len then
    (-einval,regList,[])
  else
    let nrPages := toInt32 (len / 4096 : Nat)
    listUnregister offset (offset + nrPages * pageSize) sendErr regList 0

inductive Msg
  | deleteWindow (id : Nat)
  | usedWindow (id : Nat)
deriving DecidableEq

/-- One endpoint's windows on both nodes and the messages in flight; `gone` are the windows in
ranges unregistered with 0. -/
structure Sys where
  regList : List ScifWindow
  peer : Peer
  toPeer : List Nat
  toOwner : List Msg
  gone : List ScifWindow

/-- All windows are registered on both nodes; nothing is mapped and nothing in flight. -/
def Sys.init (ws : List ScifWindow) : Sys :=
  { regList := ws,peer := { Peer.init with windows := ws },toPeer := [],toOwner := [],gone := [] }

def scifRecvDelWindow (id : Nat) : List ScifWindow := regList.filter (fun w => w.id ≠ id)

def scifRecvUsedWindow (id : Nat) : List ScifWindow :=
  updateWindow regList id (fun w => { w with unregState := .denied })

/-- The calls that name a range of the endpoint's windows, on it and on the peer. -/
inductive Call
  | readfrom (loffset : Int) (len : Nat) (roffset : Int) (flags : Nat)
      (remoteRegList : List ScifWindow) (copyErr : Int → Int)
  | writeto (loffset : Int) (len : Nat) (roffset : Int) (flags : Nat)
      (remoteRegList : List ScifWindow) (copyErr : Int → Int)
  | fenceSignal (loff roff : Int) (flags : Nat) (remoteRegList peerRegList : List ScifWindow)
      (localErr remoteErr : Int)
  | peerMmap (v : Vma) (remap : Bool)
  | peerGetPages (offset : Int) (len : Nat) (mem : Bool)
  | peerReadfrom (loffset : Int) (len : Nat) (roffset : Int) (flags : Nat)
      (peerRegList : List ScifWindow) (copyErr : Int → Int)
  | peerWriteto (loffset : Int) (len : Nat) (roffset : Int) (flags : Nat)
      (peerRegList : List ScifWindow) (copyErr : Int → Int)

variable (s : Sys)

def Call.result : Call → Int
  | .readfrom loffset len roffset flags remote copyErr =>
    scifReadfrom s.regList remote loffset len roffset flags copyErr
  | .writeto loffset len roffset flags remote copyErr =>
    scifWriteto s.regList remote loffset len roffset flags copyErr
  | .fenceSignal loff roff flags remote peerReg localErr remoteErr =>
    scifFenceSignal ⟨s.regList,remote,peerReg,s.peer.windows⟩ loff roff flags localErr remoteErr
  | .peerMmap v remap => (scifMmap s.peer v remap).1
  | .peerGetPages offset len mem => (scifGetPages s.peer offset len mem).1
  | .peerReadfrom loffset len roffset flags reg copyErr =>
    scifReadfrom reg s.peer.windows loffset len roffset flags copyErr
  | .peerWriteto loffset len roffset flags reg copyErr =>
    scifWriteto reg s.peer.windows loffset len roffset flags copyErr

/-- The peer's state after the call: only mappings change it. -/
def Call.peer (s : Sys) : Call → Peer
  | .peerMmap v remap => (scifMmap s.peer v remap).2
  | .peerGetPages offset len mem => (scifGetPages s.peer offset len mem).2
  | _ => s.peer

/-- Whether the call is made on the peer. -/
def Call.onPeer : Call → Bool
  | .readfrom .. | .writeto .. | .fenceSignal .. => false
  | .peerMmap .. | .peerGetPages .. | .peerReadfrom .. | .peerWriteto .. => true

/-- The range of the endpoint's windows that the call uses, and the list it is looked up in.
A fence signal writes to `loff` itself, or has the peer write there. -/
def Call.range : Call → Option (Int × Int × List ScifWindow)
  | .readfrom loffset len .. | .writeto loffset len .. => some (loffset,loffset + len,s.regList)
  | .fenceSignal loff _ flags .. =>
    if flags &&& scifFenceInitPeer ≠ 0 then
      if flags &&& scifSignalRemote ≠ 0 then some (loff,loff + 8,s.peer.windows) else none
    else if flags &&& scifSignalLocal ≠ 0 then some (loff,loff + 8,s.regList)
    else none
  | .peerMmap v _ => some (v.offset,v.offset + v.nrPages * pageSize,s.peer.windows)
  | .peerGetPages offset len _ => some (offset,offset + len,s.peer.windows)
  | .peerReadfrom _ len roffset .. | .peerWriteto _ len roffset .. =>
    some (roffset,roffset + len,s.peer.windows)

/-- The unregistered windows that the range meets: on the peer those whose
`SCIF_UNREGISTER` it has handled. -/
def Call.met (c : Call) : List ScifWindow :=
  match c.range s with
  | none => []
  | some (first,last,_) =>
    s.gone.filter (fun g => (¬ c.onPeer ∨ g.id ∈ s.peer.unregistered) ∧
      first < g.endOffset ∧ g.offset < last ∧ first < last)

inductive Act
  | unregister (offset : Int) (len : Nat) (sendErr : Nat → Int)
  | recvUnreg (id : Nat)
  | recvOwner (m : Msg)
  | peerSplit (v : Vma) (n : Nat)
  | peerMunmap (v : Vma)
  | peerPutPages (r : ScifRange)
  | call (c : Call)

/-- The peer takes a step of its own; the windows it deletes are told to the owner. -/
def Sys.peerStep (a : Mapping.Act) : Option Sys :=
  (s.peer.step a).map (fun p =>
    { s with peer := p
             toOwner := s.toOwner ++ (p.sent.drop s.peer.sent.length).map Msg.deleteWindow })

def usedReply (s : Peer) (recv : ScifWindow) : List Msg :=
  let req :=
    { offset := recv.offset,nrBytes := (recv.nrPages * pageSize).toNat,prot := 0,type := .full }
  match scifQueryWindow s.windows req with
  | .ok (some window) => if window.mappedPages = 0 then [] else [.usedWindow window.id]
  | _ => []

def Sys.step : Act → Option Sys
  | .unregister offset len sendErr =>
    let (err,regList,sent) := scifUnregister s.regList offset len sendErr
    let within := s.regList.filter (fun w => offset ≤ w.offset ∧ w.endOffset ≤ offset + len)
    some { s with
      regList := regList
      toPeer := s.toPeer ++ sent
      gone := if err = 0 then within ++ s.gone else s.gone }
  | .recvUnreg id =>
    if id ∈ s.toPeer then
      match s.peer.windows.find? (fun w => w.id = id) with
      | some recv =>
        (s.peerStep (.unregister recv)).map (fun t =>
          { t with toPeer := s.toPeer.erase id,toOwner := t.toOwner ++ usedReply s.peer recv })
      | none => none
    else none
  | .recvOwner m =>
    if m ∈ s.toOwner then
      match m with
      | .deleteWindow id =>
        some { s with regList := scifRecvDelWindow s.regList id,toOwner := s.toOwner.erase m }
      | .usedWindow id =>
        some { s with regList := scifRecvUsedWindow s.regList id,toOwner := s.toOwner.erase m }
    else none
  | .peerSplit v n => s.peerStep (.split v n)
  | .peerMunmap v => s.peerStep (.munmap v)
  | .peerPutPages r => s.peerStep (.putPages r)
  | .call c => some { s with peer := c.peer s }

end Mpss.Scif.Unregister
