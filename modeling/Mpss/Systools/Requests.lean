import Mathlib.Algebra.Order.Ring.Int
import Mpss.Library.Outcomes

namespace Mpss.Systools.Requests
open Library.Outcomes

abbrev Bytes := List Nat

def word (bytes : Bytes) : Nat := bytes.foldr (fun b n => b + 256 * n) 0

/-- A byte string of a fixed length, padded with zeros. -/
def fixed (n : Nat) (bytes : Bytes) : Bytes := (bytes ++ List.replicate n 0).take n

structure SystoolsdReq where
  reqType : Nat
  length : Nat
  cardErrno : Nat
  extra : Nat
  data : Bytes
deriving DecidableEq,Repr

def sizeofReq : Nat := 26

/-- The structure in a buffer that was zero before. -/
def SystoolsdReq.ofBytes (received : Bytes) : SystoolsdReq :=
  let b := fixed sizeofReq received
  ⟨word (b.take 2),word ((b.drop 2).take 2),word ((b.drop 4).take 2),word
    ((b.drop 6).take 4),b.drop 10⟩

def maxDataLength : Nat := 16

def GET_SYSTOOLSD_INFO : Nat := 0x01
def GET_PTHRESH_INFO : Nat := 0x0d
def GET_TURBO_INFO : Nat := 0x0f
def READ_SMC_REG : Nat := 0x10
def MICBIOS_REQUEST : Nat := 0x11
def SET_PWM_ADDER : Nat := 0x82
def SET_LED_BLINK : Nat := 0x83
def SET_PTHRESH_W0 : Nat := 0x84
def SET_PTHRESH_W1 : Nat := 0x85
def SET_TURBO : Nat := 0x86
def RESTART_SMBA : Nat := 0x87
def WRITE_SMC_REG : Nat := 0x88

variable (reqType : Nat)

def isSetRequest : Bool := reqType / 128 % 2 = 1

inductive SystoolsdError
  | unknownError
  | unsupportedReq
  | invalStruct
  | invalArgument
  | tooBusy
  | insufficientPrivileges
  | deviceBusy
  | restartInProgress
  | smcError
  | ioError
  | internalError
  | scifError
deriving DecidableEq,Repr

def SystoolsdError.nr : SystoolsdError → Nat
  | .unknownError => 1
  | .unsupportedReq => 2
  | .invalStruct => 3
  | .invalArgument => 4
  | .tooBusy => 5
  | .insufficientPrivileges => 6
  | .deviceBusy => 7
  | .restartInProgress => 8
  | .smcError => 9
  | .ioError => 10
  | .internalError => 11
  | .scifError => 12

/-- What is thrown: a `SystoolsdException` or something else. -/
inductive Failure
  | systoolsd (error : SystoolsdError)
  | other
deriving DecidableEq,Repr

/-- The operations of the services behind the daemon. -/
inductive Device
  | readBytes (smcCmd length : Nat)
  | writeBytes (smcCmd : Nat) (bytes : Bytes)
  | writeU32 (smcCmd value : Nat)
  | isDeviceBusy
  | restartDevice (addr : Nat)
  | windowFactory (nr : Nat)
  | setPthresh (nr value : Nat)
  | setTimeWindow (nr value : Nat)
  | setTurboEnabled (enable : Bool)
  | getSetting (prop : Nat)
  | setSetting (prop value : Nat) (passwd : Bytes)
  | setPasswd (old new : Bytes)
deriving DecidableEq,Repr

/-- A data group's `get_size` and the memory behind `get_raw_data`, a null pointer where there is
none. -/
structure RawData where
  size : Nat
  data : Option (Nat → Nat)

def RawData.bytes (raw : RawData) : Option Bytes :=
  raw.data.map (fun mem => (List.range raw.size).map mem)

inductive Message
  | header (req : SystoolsdReq)
  | data (bytes : Option Bytes)
deriving DecidableEq,Repr

/-- What a handler asks of the daemon, of its session's endpoint and of the services. -/
inductive Query
  | queued
  | acquireRequest
  | releaseRequest
  | isFromRoot
  | getRawData (reqType : Nat)
  | forceRefresh (reqType : Nat)
  | device (op : Device)
  | send (message : Message)
  | recv (length : Nat)
  | close
deriving DecidableEq,Repr

abbrev Answer : Query → Type
  | .queued => Unit
  | .acquireRequest => Bool
  | .releaseRequest => Unit
  | .isFromRoot => Bool
  | .getRawData _ => Except Failure RawData
  | .forceRefresh _ => Except Failure Unit
  | .device _ => Except Failure Bytes
  | .send _ => Except Failure Unit
  | .recv _ => Option Bytes
  | .close => Unit

abbrev Handler := Program Query Answer

/-- `ScifEp::send` throws for a null pointer only; nobody looks at the number it returns. -/
def scifEpSend : Message → Except Failure Unit
  | .header _ => .ok ()
  | .data (some _) => .ok ()
  | .data none => .error (.systoolsd .scifError)

/-- How a handler goes on: it returns, or throws with the request as it is then. -/
structure Exits where
  ret : Handler
  throw : SystoolsdReq → Failure → Handler

def replyError (cardErrno : Nat) (req : SystoolsdReq) (next : Handler) : Handler :=
  .ask (.send (.header { req with cardErrno := cardErrno })) fun
    | .ok _ => next
    | .error _ => .ask .close fun _ => next

/-- `reply_error` for what a `catch (SystoolsdException &)` followed by a `catch (...)` has
caught. -/
def replyCaught (failure : Failure) (req : SystoolsdReq) (next : Handler) : Handler :=
  match failure with
  | .systoolsd error => replyError error.nr req next
  | .other => replyError SystoolsdError.unknownError.nr req next

/-- The keys of `m_data_groups`. -/
def hasDataGroup : Bool := GET_SYSTOOLSD_INFO ≤ reqType && reqType ≤ GET_TURBO_INFO

variable (req : SystoolsdReq) (exits : Exits)

/-- `req.length` has 16 bits. -/
def serviceRequest : Handler :=
  .ask (.getRawData req.reqType) fun
    | .error failure => replyCaught failure req exits.ret
    | .ok raw =>
      let req := { req with cardErrno := 0,length := raw.size % 2 ^ 16 }
      .ask (.send (.header req)) fun
        | .error failure => replyCaught failure req exits.ret
        | .ok _ => .ask (.send (.data raw.bytes)) fun
          | .error failure => replyCaught failure req exits.ret
          | .ok _ => exits.ret

def requestHandler : Handler :=
  if hasDataGroup req.reqType then serviceRequest req exits
  else replyError SystoolsdError.unsupportedReq.nr req exits.ret

/-- A handler that only administrators may use. -/
def fromRoot (granted : Handler) : Handler :=
  .ask .isFromRoot fun root =>
    if root then granted else replyError SystoolsdError.insufficientPrivileges.nr req exits.ret

def reqToCmd : Option Nat :=
  if reqType = SET_PWM_ADDER then some 0x4b
  else if reqType = SET_LED_BLINK then some 0x60
  else none

def setRequestHandler : Handler :=
  match reqToCmd req.reqType with
  | none => replyError SystoolsdError.unsupportedReq.nr req exits.ret
  | some smcCmd =>
    fromRoot req exits <|
      .ask (.device (.writeU32 smcCmd (word (req.data.take 4)))) fun
        | .error (.systoolsd error) => replyError error.nr req exits.ret
        | .error .other => exits.throw req .other
        | .ok _ =>
          .ask (.send (.header { req with cardErrno := 0 })) fun
            | .ok _ => exits.ret
            | .error (.systoolsd _) => .ask .close fun _ => exits.ret
            | .error .other => exits.throw { req with cardErrno := 0 } .other

/-- The SMC command is the low byte of `extra`. -/
def smcOperation : Device :=
  if req.reqType = READ_SMC_REG then .readBytes (req.extra % 256) req.length
  else .writeBytes (req.extra % 256) (req.data.take req.length)

/-- The request after the operation; a read has cleared the data and filled it in. -/
def smcResult (bytes : Bytes) : SystoolsdReq :=
  if req.reqType = READ_SMC_REG then { req with
    data := fixed maxDataLength (bytes.take req.length) } else req

/-- The `catch` of a `SystoolsdException` replies and does not return. -/
def smcRwHandler : Handler :=
  fromRoot req exits <|
    if req.length = 0 ∨ maxDataLength < req.length then
      replyError SystoolsdError.invalStruct.nr req exits.ret
    else
      .ask (.device (smcOperation req)) fun
        | .error .other => exits.throw (smcResult req []) .other
        | .error (.systoolsd error) =>
          replyError error.nr (smcResult req []) (replyError 0 (smcResult req []) exits.ret)
        | .ok bytes => replyError 0 (smcResult req bytes) exits.ret

def turboRequestHandler : Handler :=
  fromRoot req exits <|
    .ask (.device (.setTurboEnabled (req.data.head? != some 0))) fun
      | .error failure => exits.throw req failure
      | .ok _ =>
        replyError 0 req <|
          .ask (.forceRefresh GET_TURBO_INFO) fun
            | .error failure => exits.throw { req with cardErrno := 0 } failure
            | .ok _ => exits.ret

/-- The sets of a handler, one after the other, up to the first that throws. -/
def inTurn (ops : List Device) (thrown : Failure → Handler) (next : Handler) : Handler :=
  match ops with
  | [] => next
  | op :: ops => .ask (.device op) fun
    | .error failure => thrown failure
    | .ok _ => inTurn ops thrown next

def sizeofWindowInfo : Nat := 8

/-- The sets for a `PowerWindowInfo`; all ones stands for a value that is not to be set. -/
def windowSets (nr : Nat) (info : Bytes) : List Device :=
  (if word (info.take 4) = 2 ^ 32 - 1 then [] else [.setPthresh nr (word (info.take 4))]) ++
  (if word (info.drop 4) = 2 ^ 32 - 1 then [] else [.setTimeWindow nr (word (info.drop 4))])

/-- A failure where only a `SystoolsdException` is caught. -/
def caughtHere : Failure → Handler
  | .systoolsd error => replyError error.nr req exits.ret
  | .other => exits.throw req .other

def pthreshRequestHandler : Handler :=
  let nr := if req.reqType = SET_PTHRESH_W0 then 0 else 1
  let ack := { req with cardErrno := 0 }
  fromRoot req exits <|
    .ask (.device (.windowFactory nr)) fun
      | .error failure => caughtHere req exits failure
      | .ok _ => .ask (.send (.header ack)) fun
        | .error failure => caughtHere ack exits failure
        | .ok _ => .ask (.recv sizeofWindowInfo) fun received =>
          if (received.getD []).length ≠ sizeofWindowInfo then .ask .close fun _ => exits.ret
          else
            inTurn (windowSets nr (received.getD [])) (caughtHere ack exits) <|
              .ask (.forceRefresh GET_PTHRESH_INFO) fun
                | .error failure => exits.throw ack failure
                | .ok _ => .ask (.send (.header ack)) fun
                  | .error failure => exits.throw ack failure
                  | .ok _ => exits.ret

def sizeofMicBiosRequest : Nat := 10

/-- A property with its bit, the place of its bit field and the number of values it has. -/
structure Setting where
  bit : Nat
  shift : Nat
  width : Nat
  max : Nat

/-- In the order in which `serve_write_request` goes through them. -/
def settings : List Setting :=
  [⟨0x01,0,4,6⟩,⟨0x02,4,3,3⟩,⟨0x04,7,2,2⟩,⟨0x08,11,2,2⟩,⟨0x10,9,2,2⟩,⟨0x20,13,2,2⟩,⟨0x40,15,2,2⟩]

def Setting.wanted (s : Setting) (prop : Nat) : Bool := prop / s.bit % 2 = 1

def Setting.value (s : Setting) (fields : Nat) : Nat := fields / 2 ^ s.shift % 2 ^ s.width

/-- The two sends that end a BIOS request; both kinds of exception are caught. -/
def finalSend (more : List Message) (exits : Exits) : Handler :=
  .ask (.send (.header req)) fun
    | .error failure => replyCaught failure req exits.ret
    | .ok _ =>
      match more with
      | [] => exits.ret
      | message :: _ => .ask (.send message) fun
        | .error failure => replyCaught failure req exits.ret
        | .ok _ => exits.ret

/-- The settings that were asked for are read one after the other; the answer has the request's
form. -/
def serveReadRequest (cmd prop : Nat) (exits : Exits) : List Setting → Nat → Handler
  | [],fields =>
    finalSend { req with cardErrno := 0,length := sizeofMicBiosRequest }
      [.data (some (cmd :: prop :: (List.range 8).map (fun i => fields / 256 ^ i % 256)))] exits
  | s :: rest,fields =>
    if s.wanted prop then
      .ask (.device (.getSetting s.bit)) fun
        | .error failure => caughtHere req exits failure
        | .ok value => serveReadRequest cmd prop exits rest
            (fields - s.value fields * 2 ^ s.shift + word value % 2 ^ s.width * 2 ^ s.shift)
    else serveReadRequest cmd prop exits rest fields

/-- Each value is checked and set before the next one is looked at. -/
def serveWriteRequest (prop fields : Nat) (exits : Exits) : List Setting → Handler
  | [] => finalSend { req with cardErrno := 0 } [] exits
  | s :: rest =>
    if s.wanted prop then
      if s.max ≤ s.value fields then replyError SystoolsdError.invalArgument.nr req exits.ret
      else
        .ask (.device (.setSetting s.bit (s.value fields) req.data)) fun
          | .error failure => caughtHere req exits failure
          | .ok _ => serveWriteRequest prop fields exits rest
    else serveWriteRequest prop fields exits rest

def serveChangePasswordRequest : Handler :=
  let ack := { req with cardErrno := 0 }
  let change (newPasswd : Bytes) : Handler :=
    .ask (.device (.setPasswd req.data newPasswd)) fun
      | .error failure => caughtHere ack exits failure
      | .ok _ => finalSend ack [] exits
  if 14 < req.length then replyError SystoolsdError.invalArgument.nr req exits.ret
  else .ask (.send (.header ack)) fun
    | .error failure => caughtHere ack exits failure
    | .ok _ =>
      if req.length = 0 then change []
      else .ask (.recv req.length) fun received =>
        if (received.getD []).length ≠ req.length then replyError
          SystoolsdError.invalStruct.nr ack exits.ret
        else change (received.getD [])

def micBiosRequestHandler : Handler :=
  let ack := { req with cardErrno := 0 }
  fromRoot req exits <|
    .ask (.send (.header ack)) fun
      | .error failure => exits.throw ack failure
      | .ok _ => .ask (.recv sizeofMicBiosRequest) fun received =>
        let bytes := received.getD []
        if bytes.length ≠ sizeofMicBiosRequest then
          replyError SystoolsdError.invalStruct.nr ack (.ask .close fun _ => exits.ret)
        else
          match bytes with
          | 0 :: prop :: value => serveReadRequest ack 0 prop exits settings (word value)
          | 1 :: prop :: value => serveWriteRequest ack prop (word value) exits settings
          | 2 :: _ => serveChangePasswordRequest ack exits
          | _ => replyError SystoolsdError.unsupportedReq.nr ack exits.ret

/-- `RequestHandlerBase::Run` around `handle_request`. A request that is refused because the daemon
is busy is released as well. -/
def run (handleRequest : SystoolsdReq → Exits → Handler) : Handler :=
  let finished : Handler := .ask .releaseRequest fun _ => .done
  .ask .acquireRequest fun acquired =>
    if acquired then handleRequest req ⟨finished,fun req failure => replyCaught failure req finished⟩
    else replyError SystoolsdError.tooBusy.nr req finished

/-- The constructor of `RestartSmba` does the work; `handle_request` only replies. -/
def restartSmba : Handler :=
  let queue (error : Nat) : Handler :=
    .ask .queued fun _ => run req fun req exits => replyError error req exits.ret
  let failed : Failure → Handler
    | .systoolsd error => queue error.nr
    | .other => queue SystoolsdError.unknownError.nr
  .ask .isFromRoot fun root =>
    if !root then queue SystoolsdError.insufficientPrivileges.nr
    else .ask (.device .isDeviceBusy) fun
      | .error failure => failed failure
      | .ok busy =>
        if word busy ≠ 0 then queue SystoolsdError.restartInProgress.nr
        else .ask (.device (.restartDevice (req.data.headD 0))) fun
          | .error failure => failed failure
          | .ok _ => queue 0

def createRequest : Handler :=
  if req.reqType = RESTART_SMBA then restartSmba req
  else .ask .queued fun _ =>
    if req.reqType = READ_SMC_REG ∨ req.reqType = WRITE_SMC_REG then run req smcRwHandler
    else if req.reqType = SET_PTHRESH_W0 ∨ req.reqType = SET_PTHRESH_W1 then run req
      pthreshRequestHandler
    else if req.reqType = SET_TURBO then run req turboRequestHandler
    else if req.reqType = MICBIOS_REQUEST then run req micBiosRequestHandler
    else if isSetRequest req.reqType then run req setRequestHandler
    else run req requestHandler

end Mpss.Systools.Requests
