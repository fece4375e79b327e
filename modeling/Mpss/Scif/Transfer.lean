import Mpss.Scif.Window

namespace Mpss.Scif.Transfer
open Scif.Window

def vmRead : Nat := 1

def vmWrite : Nat := 2

def l1CacheBytes : Nat := 64

def scifMaxUnalignedBufSize : Nat := 1024 * 1024

inductive RmaDir
  | localToRemote
  | remoteToLocal
deriving DecidableEq

def scifUnaligned (srcOffset dstOffset : Int) : Bool :=
  srcOffset % l1CacheBytes ≠ dstOffset % l1CacheBytes

/-- `scif_rma_copy` for two registered ranges, up to the copy: its checks in order, then
`copyErr`, the result of the engine that copies. -/
def scifRmaCopy (regList remoteRegList : List ScifWindow) (loffset : Int) (len : Nat)
    (roffset : Int) (flags : Nat) (dir : RmaDir) (copyErr : Int) : Int :=
  if flags ≠ 0 ∧ flags &&& 0xF = 0 then -einval
  else
    let req :=
      { offset := loffset,nrBytes := len,prot := if dir = .localToRemote then vmRead else vmWrite
        type := .part }
    let remoteReq :=
      { offset := roffset,nrBytes := len,prot := if dir = .localToRemote then vmWrite else vmRead
        type := .part }
    match scifQueryWindow regList req with
    | .error err => err
    | .ok _ =>
      match scifQueryWindow remoteRegList remoteReq with
      | .error err => err
      | .ok _ => copyErr

/-- `scif_readfrom` and `scif_writeto`: ranges not aligned to each other are copied in chunks;
`copyErr` gives the result by local offset. -/
def scifTransfer (regList remoteRegList : List ScifWindow) (loffset : Int) (len : Nat)
    (roffset : Int) (flags : Nat) (dir : RmaDir) (copyErr : Int → Int) : Int :=
  if scifUnaligned loffset roffset ∧ scifMaxUnalignedBufSize < len then
    let err := scifRmaCopy regList remoteRegList loffset scifMaxUnalignedBufSize roffset flags dir
      (copyErr loffset)
    if err ≠ 0 then err
    else
      scifTransfer regList remoteRegList (loffset + scifMaxUnalignedBufSize)
        (len - scifMaxUnalignedBufSize) (roffset + scifMaxUnalignedBufSize) flags dir copyErr
  else scifRmaCopy regList remoteRegList loffset len roffset flags dir (copyErr loffset)
termination_by len
decreasing_by
  unfold scifMaxUnalignedBufSize at *
  omega

def scifReadfrom (regList remoteRegList : List ScifWindow) (loffset : Int) (len : Nat)
    (roffset : Int) (flags : Nat) (copyErr : Int → Int) : Int :=
  scifTransfer regList remoteRegList loffset len roffset flags .remoteToLocal copyErr

def scifWriteto (regList remoteRegList : List ScifWindow) (loffset : Int) (len : Nat)
    (roffset : Int) (flags : Nat) (copyErr : Int → Int) : Int :=
  scifTransfer regList remoteRegList loffset len roffset flags .localToRemote copyErr

def scifFenceInitSelf : Nat := 0x1

def scifFenceInitPeer : Nat := 0x2

def scifSignalLocal : Nat := 0x10

def scifSignalRemote : Nat := 0x20

/-- `scif_prog_signal` on one of the two lists; `progErr` is the result of the write. -/
def scifProgSignal (head : List ScifWindow) (offset : Int) (progErr : Int) : Int :=
  match scifQueryWindow head { offset := offset,nrBytes := 8,prot := vmWrite,type := .single } with
  | .error err => err
  | .ok _ => progErr

/-- The lists that a fence signal can look in: the endpoint's own two and the peer's two. -/
structure Lists where
  regList : List ScifWindow
  remoteRegList : List ScifWindow
  peerRegList : List ScifWindow
  peerRemoteRegList : List ScifWindow

/-- The answer of the peer: a failed signal is a NACK. -/
def sigResp (err : Int) : Int := if err = 0 then 0 else -enxio

/-- `scif_send_fence_signal`. The peer looks up `roff` among its own windows for
`SCIF_SIG_LOCAL` and `loff` among its remote ones for `SCIF_SIG_REMOTE`. -/
def scifSendFenceSignal (l : Lists) (loff roff : Int) (flags : Nat) (localErr remoteErr : Int) : Int :=
  let err :=
    if flags &&& scifSignalLocal ≠ 0 then sigResp (scifProgSignal l.peerRegList roff localErr) else 0
  if err ≠ 0 then err
  else if flags &&& scifSignalRemote ≠ 0 then
    sigResp (scifProgSignal l.peerRemoteRegList loff remoteErr)
  else 0

/-- `localErr` and `remoteErr` are the results of the writes of the two signals. -/
def scifFenceSignal (l : Lists) (loff roff : Int) (flags : Nat) (localErr remoteErr : Int) : Int :=
  let initSelf := flags &&& scifFenceInitSelf ≠ 0
  let initPeer := flags &&& scifFenceInitPeer ≠ 0
  let signalLocal := flags &&& scifSignalLocal ≠ 0
  let signalRemote := flags &&& scifSignalRemote ≠ 0
  if flags ||| 0x33 ≠ 0x33 then -einval
  else if ¬ initSelf ∧ ¬ initPeer then -einval
  else if initSelf ∧ initPeer then -einval
  else if ¬ signalLocal ∧ ¬ signalRemote then -einval
  else if signalLocal ∧ loff % 4 ≠ 0 then -einval
  else if signalRemote ∧ roff % 4 ≠ 0 then -einval
  else if initPeer then scifSendFenceSignal l loff roff flags localErr remoteErr
  else
    let err := if signalLocal then scifProgSignal l.regList loff localErr else 0
    if err ≠ 0 then err
    else if signalRemote then scifProgSignal l.remoteRegList roff remoteErr
    else 0

/-- The registered address spaces as the caller sees them. -/
inductive Space
  | own
  | remote
deriving DecidableEq

structure Signal where
  space : Space
  offset : Int
  value : Nat
deriving DecidableEq

/-- What a successful call has written. Through the peer `SCIF_SIG_LOCAL` carries `roff` and `rval`,
`SCIF_SIG_REMOTE` `loff` and `lval`. -/
def fenceSignals (loff : Int) (lval : Nat) (roff : Int) (rval flags : Nat) : List Signal :=
  if flags &&& scifFenceInitPeer ≠ 0 then
    (if flags &&& scifSignalLocal ≠ 0 then [⟨.remote,roff,rval⟩] else []) ++
      if flags &&& scifSignalRemote ≠ 0 then [⟨.own,loff,lval⟩] else []
  else
    (if flags &&& scifSignalLocal ≠ 0 then [⟨.own,loff,lval⟩] else []) ++
      if flags &&& scifSignalRemote ≠ 0 then [⟨.remote,roff,rval⟩] else []

end Mpss.Scif.Transfer
