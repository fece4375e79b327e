import Mpss.Systools.Requests

namespace Mpss.Proofs.RequestsAnswered
open Library.Outcomes Systools.Requests List

/-- What a request meets: how many are being executed, whether the peer is an administrator, what
the data group or the SMC does, and which sends get through. -/
structure Surroundings where
  load : Nat
  root : Bool
  group : Except Failure RawData
  smc : Except Failure Bytes
  delivered : Nat → Bool

def Surroundings.answer (env : Surroundings) : (q : Query) → Answer q
  | .queued => ()
  | .acquireRequest => env.load != 32
  | .releaseRequest => ()
  | .isFromRoot => env.root
  | .getRawData _ => env.group
  | .forceRefresh _ => .ok ()
  | .device _ => env.smc
  | .send message => scifEpSend message
  | .recv _ => none
  | .close => ()

def asked (env : Surroundings) (handler : Handler) : List Query :=
  questions (fun _ q => env.answer q) (fun s _ => s) () handler

def served (env : Surroundings) (req : SystoolsdReq) : List Query := asked env (createRequest req)

def messages (qs : List Query) : List Message := qs.filterMap
    (fun | .send message => some message | _ => none)

inductive Kind
  | get
  | set
  | smcRw

/-- The requests for data, the generic sets and the SMC registers; the others have handlers of their
own. -/
def kind (req : SystoolsdReq) : Option Kind :=
  if req.reqType = READ_SMC_REG ∨ req.reqType = WRITE_SMC_REG then some .smcRw
  else if req.reqType = SET_PTHRESH_W0 ∨ req.reqType = SET_PTHRESH_W1 ∨ req.reqType = SET_TURBO ∨
      req.reqType = RESTART_SMBA ∨ req.reqType = MICBIOS_REQUEST then none
  else if isSetRequest req.reqType then some .set
  else some .get

/-- The operation has been asked for and has not failed. -/
def CarriedOut (env : Surroundings) (req : SystoolsdReq) (qs : List Query) : Kind → Prop
  | .get => .getRawData req.reqType ∈ qs ∧ ∃ raw,env.group = .ok raw
  | .set => ∃ cmd,reqToCmd req.reqType = some cmd ∧
      .device (.writeU32 cmd (word (req.data.take 4))) ∈ qs ∧ ∃ bytes,env.smc = .ok bytes
  | .smcRw => .device (smcOperation req) ∈ qs ∧ ∃ bytes,env.smc = .ok bytes

/-- One header that does not claim too much, with the data behind it if it is a get that
succeeded. -/
def OneAnswer (env : Surroundings) (req : SystoolsdReq) (k : Kind) (qs : List Query) : Prop :=
  ∃ header : SystoolsdReq,(header.cardErrno = 0 → CarriedOut env req qs k) ∧
    ((messages qs = [.header header] ∧ ¬ (k matches .get ∧ header.cardErrno = 0)) ∨
      ∃ bytes,messages qs = [.header header,.data (some bytes)] ∧ bytes.length = header.length ∧
        k matches .get ∧ header.cardErrno = 0)

def Answered (env : Surroundings) (req : SystoolsdReq) (k : Kind) : Prop :=
  .close ∈ served env req ∨
    (∀ i < (messages (served env req)).length,env.delivered i = true) ∧ OneAnswer env req k
    (served env req)

/-- The sends get through, an SMC operation throws no `SystoolsdException`, and the data of a group
is there and fits the length field. -/
def Undisturbed (env : Surroundings) (req : SystoolsdReq) : Kind → Prop
  | .get => env.delivered 0 = true ∧ (env.load ≠ 32 → hasDataGroup req.reqType = true →
      ∀ raw,env.group = .ok raw → env.delivered 1 = true ∧ raw.data.isSome = true ∧ raw.size < 2 ^ 16)
  | .set => env.delivered 0 = true
  | .smcRw => env.delivered 0 = true ∧
      ¬ (env.load ≠ 32 ∧ env.root = true ∧ 0 < req.length ∧ req.length ≤ maxDataLength ∧
        ∃ error,env.smc = .error (.systoolsd error))

variable {header : SystoolsdReq}

theorem asked_ask : asked env (.ask q k) = q :: asked env (k (env.answer q)) := rfl

theorem asked_replyError :
    asked env (replyError nr req k) = .send (.header { req with cardErrno := nr }) ::
    asked env k := rfl

theorem nr_ne_zero (error : SystoolsdError) : error.nr ≠ 0 := by cases error <;> decide

def exits : Exits :=
  ⟨.ask .releaseRequest fun _ => .done,fun req failure => replyCaught failure req
    (.ask .releaseRequest fun _ => .done)⟩

def refusal (req : SystoolsdReq) (error : SystoolsdError) : List Query :=
  [.send (.header { req with cardErrno := error.nr }),.releaseRequest]

theorem asked_run :
    asked env (run req handle) = .acquireRequest ::
      if env.load ≠ 32 then asked env (handle req exits) else refusal req .tooBusy := by
  unfold run
  rw [asked_ask]
  by_cases hl : env.load = 32
  · simp [Surroundings.answer,hl,asked_replyError,asked_ask]
    rfl
  · simp [Surroundings.answer,hl,exits]

theorem createRequest_get (h : kind req = some .get) :
    createRequest req = .ask .queued fun _ => run req requestHandler := by
  unfold kind at h
  unfold createRequest
  grind

theorem createRequest_set (h : kind req = some .set) :
    createRequest req = .ask .queued fun _ => run req setRequestHandler := by
  unfold kind at h
  unfold createRequest
  grind

theorem createRequest_smcRw (h : kind req = some .smcRw) :
    createRequest req = .ask .queued fun _ => run req smcRwHandler := by
  unfold kind at h
  unfold createRequest
  grind [RESTART_SMBA,READ_SMC_REG,WRITE_SMC_REG]

def handled (env : Surroundings) (req : SystoolsdReq)
    (handle : SystoolsdReq → Exits → Handler) : List Query :=
  asked env (handle req exits)

section
variable (h : createRequest req = .ask .queued fun _ => run req handle)
include h

theorem served_run : served env req = .queued :: asked env (run req handle) := by
  unfold served
  rw [h,asked_ask]

theorem served_idle (hl : env.load ≠ 32) :
    served env req = .queued :: .acquireRequest :: handled env req handle := by
  rw [served_run h,asked_run,if_pos hl]
  rfl

theorem served_busy (hl : env.load = 32) :
    served env req = .queued :: .acquireRequest :: refusal req .tooBusy := by
  rw [served_run h,asked_run,if_neg (by simpa using hl)]

end

section
variable (hc : .close ∉ served env req)
include hc

theorem answered_header (hm : messages (served env req) = [.header header])
    (hk : ¬ (k matches .get ∧ header.cardErrno = 0))
    (hcr : header.cardErrno = 0 → CarriedOut env req (served env req) k) :
    Answered env req k ↔ env.delivered 0 = true := by
  unfold Answered
  rw [hm]
  constructor
  · rintro (h | ⟨h,_⟩)
    · exact absurd h hc
    · exact h 0 (by simp)
  · intro h
    refine .inr ⟨?_,header,hcr,.inl ⟨hm,hk⟩⟩
    intro i hi
    obtain rfl : i = 0 := by simpa using hi
    exact h

theorem not_answered_twice (hm : messages (served env req) = .header header :: more)
    (hmr : .header again ∈ more) : ¬ Answered env req k := by
  rintro (h | ⟨_,he',_,⟨h,_⟩ | ⟨bytes,h,_⟩⟩)
  · exact hc h
  · rw [hm] at h
    obtain ⟨_,rfl⟩ := cons.inj h
    cases hmr
  · rw [hm] at h
    obtain ⟨_,rfl⟩ := cons.inj h
    simp at hmr

theorem answered_data (hm : messages (served env req) = [.header header,.data (some bytes)])
    (h0 : header.cardErrno = 0) (hcr : CarriedOut env req (served env req) .get) :
    Answered env req .get ↔
      env.delivered 0 = true ∧ env.delivered 1 = true ∧ bytes.length = header.length := by
  unfold Answered
  rw [hm]
  constructor
  · rintro (h | ⟨h,he',_,⟨h',_⟩ | ⟨bytes',h',hl,_⟩⟩)
    · exact absurd h hc
    · rw [hm] at h'
      cases h'
    · rw [hm] at h'
      cases h'
      exact ⟨h 0 (by simp),h 1 (by simp),hl⟩
  · rintro ⟨hd0,hd1,hl⟩
    refine .inr ⟨?_,header,fun _ => hcr,.inr ⟨bytes,hm,hl,rfl,h0⟩⟩
    intro i hi
    have hi : i = 0 ∨ i = 1 := by
      simp only [length_cons,length_nil] at hi
      omega
    rcases hi with rfl | rfl
    · exact hd0
    · exact hd1

end

theorem answered_error (hc : .close ∉ served env req) {error : SystoolsdError}
    (hm : messages (served env req) = [.header { header with cardErrno := error.nr }]) :
    Answered env req k ↔ env.delivered 0 = true :=
  answered_header hc hm (fun h => nr_ne_zero error h.2) (fun h => absurd h (nr_ne_zero error))

theorem answered_busy (h : createRequest req = .ask .queued fun _ => run req handle)
    (hl : env.load = 32) : Answered env req k ↔ env.delivered 0 = true := by
  have hs := served_busy h hl
  exact answered_error (by simp [hs,refusal]) (by rw [hs]; rfl)

theorem answered_refused
    (first : List Query) (h : createRequest req = .ask .queued fun _ => run req handle)
    (hl : env.load ≠ 32)
    (hh : handled env req handle = first ++ refusal header error)
    (hf : ∀ q ∈ first,q ≠ .close ∧ ∀ message,q ≠ .send message := by simp) :
    Answered env req k ↔ env.delivered 0 = true := by
  have hs := served_idle h hl
  rw [hh] at hs
  have hqt : messages first = [] := by
    apply filterMap_eq_nil_iff.mpr
    intro q hq
    cases q with
    | send message => exact absurd rfl ((hf _ hq).2 message)
    | _ => rfl
  have hcl : .close ∉ served env req := by
    rw [hs]
    simp only [refusal,mem_cons,mem_append,reduceCtorEq,not_mem_nil,or_self,or_false,false_or]
    exact fun hc => (hf _ hc).1 rfl
  have hm : messages (served env req) = [.header { header with cardErrno := error.nr }] := by
    rw [hs]
    simp only [messages,filterMap_cons,filterMap_append] at hqt ⊢
    rw [hqt]
    rfl
  exact answered_error hcl hm

theorem handled_unsupported (hg : hasDataGroup req.reqType = false) :
    handled env req requestHandler = refusal req .unsupportedReq := by
  simp only [handled,requestHandler,hg,Bool.false_eq_true,↓reduceIte]
  rfl

theorem handled_group (hg : hasDataGroup req.reqType = true) :
    handled env req requestHandler = asked env (serviceRequest req exits) := by
  simp [handled,requestHandler,hg,exits]

theorem handled_failed {failure : Failure} (hg : hasDataGroup req.reqType = true)
    (hgr : env.group = .error failure) :
    ∃ error,handled env req requestHandler = .getRawData req.reqType :: refusal req error := by
  rw [handled_group hg]
  obtain ⟨load,root,group,smc,delivered⟩ := env
  obtain rfl : group = .error failure := hgr
  cases failure with
  | systoolsd error => exact ⟨error,rfl⟩
  | other => exact ⟨.unknownError,rfl⟩

def dataHeader (req : SystoolsdReq) (raw : RawData) : SystoolsdReq :=
  { req with cardErrno := 0,length := raw.size % 2 ^ 16 }

theorem handled_data (hg : hasDataGroup req.reqType = true) (hgr : env.group = .ok ⟨size,some mem⟩) :
    handled env req requestHandler = [.getRawData req.reqType,.send
      (.header (dataHeader req ⟨size,some mem⟩)),
      .send (.data (some ((List.range size).map mem))),.releaseRequest] := by
  rw [handled_group hg]
  obtain ⟨load,root,group,smc,delivered⟩ := env
  obtain rfl : group = .ok ⟨size,some mem⟩ := hgr
  rfl

theorem handled_null (hg : hasDataGroup req.reqType = true) (hgr : env.group = .ok ⟨size,none⟩) :
    handled env req requestHandler = [.getRawData req.reqType,.send
      (.header (dataHeader req ⟨size,none⟩)),
      .send (.data none),
      .send (.header { dataHeader req ⟨size,none⟩ with cardErrno := SystoolsdError.scifError.nr }),
      .releaseRequest] := by
  rw [handled_group hg]
  obtain ⟨load,root,group,smc,delivered⟩ := env
  obtain rfl : group = .ok ⟨size,none⟩ := hgr
  rfl

theorem get_answered_iff (hk : kind req = some .get) :
    Answered env req .get ↔ Undisturbed env req .get := by
  have hc := createRequest_get hk
  by_cases hl : env.load = 32
  · rw [answered_busy hc hl]
    simp [Undisturbed,hl]
  cases hg : hasDataGroup req.reqType with
  | false =>
    rw [answered_refused [] hc hl (handled_unsupported hg)]
    simp [Undisturbed,hg]
  | true =>
    cases hgr : env.group with
    | error failure =>
      obtain ⟨error,hh⟩ := handled_failed hg hgr
      rw [answered_refused [.getRawData req.reqType] hc hl hh]
      simp [Undisturbed,hgr]
    | ok raw =>
      have hs := served_idle hc hl
      obtain ⟨size,_ | mem⟩ := raw
      · rw [handled_null hg hgr] at hs
        have hno : ¬ Answered env req .get :=
          not_answered_twice (by simp [hs]) (by rw [hs]; rfl) (.tail _ (mem_singleton_self _))
        simp [hno,Undisturbed,hl,hg,hgr]
      · rw [handled_data hg hgr] at hs
        rw [answered_data (by simp [hs]) (by rw [hs]; rfl) rfl ⟨by simp [hs],_,hgr⟩]
        have hf : size = size % 2 ^ 16 ↔ size < 2 ^ 16 := by omega
        simpa [Undisturbed,hl,hg,hgr,dataHeader] using fun _ _ => hf

theorem handled_eq : handled env req handle = asked env (handle req exits) := rfl

theorem asked_denied (hr : env.root = false) :
    asked env (fromRoot req exits granted) = .isFromRoot :: refusal req .insufficientPrivileges := by
  simp only [fromRoot,asked_ask,Surroundings.answer,hr,Bool.false_eq_true,↓reduceIte,asked_replyError]
  rfl

theorem asked_granted (hr : env.root = true) :
    asked env (fromRoot req exits granted) = .isFromRoot :: asked env granted := by
  simp [fromRoot,asked_ask,Surroundings.answer,hr]

theorem handled_set (hc : reqToCmd req.reqType = some cmd) (hr : env.root = true) :
    (∃ bytes,env.smc = .ok bytes ∧ handled env req setRequestHandler = [.isFromRoot,
        .device (.writeU32 cmd (word (req.data.take 4))),.send (.header { req with cardErrno := 0 }),
        .releaseRequest]) ∨
      ∃ error,handled env req setRequestHandler = .isFromRoot ::
        .device (.writeU32 cmd (word (req.data.take 4))) :: refusal req error := by
  simp only [handled_eq,setRequestHandler,hc,asked_granted hr]
  obtain ⟨load,root,group,(failure | bytes),delivered⟩ := env
  · right
    cases failure with
    | systoolsd error => exact ⟨error,rfl⟩
    | other => exact ⟨.unknownError,rfl⟩
  · exact .inl ⟨bytes,rfl,rfl⟩

theorem set_answered_iff (hk : kind req = some .set) :
    Answered env req .set ↔ Undisturbed env req .set := by
  have hc := createRequest_set hk
  by_cases hl : env.load = 32
  · exact answered_busy hc hl
  cases hcm : reqToCmd req.reqType with
  | none => exact answered_refused [] hc hl (by simp only [handled,setRequestHandler,hcm]; rfl)
  | some cmd =>
    cases hr : env.root with
    | false =>
      have hhn : handled env req setRequestHandler = .isFromRoot ::
        refusal req .insufficientPrivileges := by
        simp only [handled_eq,setRequestHandler,hcm]
        exact asked_denied hr
      exact answered_refused [.isFromRoot] hc hl hhn
    | true =>
      rcases handled_set hcm hr with ⟨bytes,hsm,hh⟩ | ⟨error,hh⟩
      · have hs := served_idle hc hl
        rw [hh] at hs
        exact answered_header (by simp [hs]) (by rw [hs]; rfl) (by simp)
          fun _ => ⟨cmd,hcm,by simp [hs],bytes,hsm⟩
      · exact answered_refused [.isFromRoot,_] hc hl hh

theorem handled_length (hr : env.root = true) (hl : req.length = 0 ∨ maxDataLength < req.length) :
    handled env req smcRwHandler = .isFromRoot :: refusal req .invalStruct := by
  simp only [handled_eq,smcRwHandler,asked_granted hr,if_pos hl]
  rfl

/-- What an SMC request does when it may. A `SystoolsdException` is answered twice. -/
theorem handled_smc (hr : env.root = true) (hl : ¬ (req.length = 0 ∨ maxDataLength < req.length)) :
    handled env req smcRwHandler = .isFromRoot :: .device (smcOperation req) ::
      match env.smc with
      | .ok bytes => [.send (.header { smcResult req bytes with cardErrno := 0 }),.releaseRequest]
      | .error .other => refusal (smcResult req []) .unknownError
      | .error (.systoolsd error) => [.send (.header { smcResult req [] with cardErrno := error.nr }),
          .send (.header { smcResult req [] with cardErrno := 0 }),.releaseRequest] := by
  simp only [handled_eq,smcRwHandler,asked_granted hr,if_neg hl,asked_ask]
  obtain ⟨load,root,group,(_ | _) | bytes,delivered⟩ := env
  all_goals rfl

theorem smcRw_answered_iff (hk : kind req = some .smcRw) :
    Answered env req .smcRw ↔ Undisturbed env req .smcRw := by
  have hc := createRequest_smcRw hk
  by_cases hl : env.load = 32
  · rw [answered_busy hc hl]
    simp [Undisturbed,hl]
  cases hr : env.root with
  | false =>
    rw [answered_refused [.isFromRoot] hc hl (asked_denied hr)]
    simp [Undisturbed,hr]
  | true =>
    by_cases hln : req.length = 0 ∨ maxDataLength < req.length
    · rw [answered_refused [.isFromRoot] hc hl (handled_length hr hln)]
      have hb : ¬ (0 < req.length ∧ req.length ≤ maxDataLength) := by omega
      simp only [Undisturbed,iff_self_and,not_and]
      intro _ _ _ hp hle
      exact absurd ⟨hp,hle⟩ hb
    have hs := served_idle hc hl
    have hh := handled_smc hr hln
    have hg : 0 < req.length ∧ req.length ≤ maxDataLength := by omega
    cases hsm : env.smc with
    | ok bytes =>
      rw [hsm] at hh
      rw [hh] at hs
      have hcr : CarriedOut env req (served env req) .smcRw := ⟨by simp [hs],bytes,hsm⟩
      rw [answered_header (by simp [hs]) (by rw [hs]; rfl) (by simp) fun _ => hcr]
      simp [Undisturbed,hsm]
    | error failure =>
      rw [hsm] at hh
      cases failure with
      | other =>
        rw [answered_refused [.isFromRoot,_] hc hl hh]
        simp [Undisturbed,hsm]
      | systoolsd error =>
        rw [hh] at hs
        have hno : ¬ Answered env req .smcRw :=
          not_answered_twice (by simp [hs]) (by rw [hs]; rfl) (mem_singleton_self _)
        simp [hno,Undisturbed,hl,hr,hg,hsm]

/-- A request for data, a generic set or an SMC access is answered once and truthfully exactly if
nothing disturbs it. -/
theorem request_answered_iff (env : Surroundings) (req : SystoolsdReq) (hk : kind req = some k) :
    Answered env req k ↔ Undisturbed env req k := by
  cases k with
  | get => exact get_answered_iff hk
  | set => exact set_answered_iff hk
  | smcRw => exact smcRw_answered_iff hk

def readRegister : SystoolsdReq := ⟨READ_SMC_REG,4,0,0x17,List.replicate 16 0⟩

theorem register_read_answered :
    Answered ⟨0,true,.error .other,.ok [1,2,3,4],fun _ => true⟩ readRegister .smcRw :=
  (request_answered_iff _ readRegister rfl).mpr ⟨rfl,by simp⟩

/-- The SMC is busy: an error and then success are sent, though nothing was read. -/
theorem busy_register_answered_twice :
    messages (served ⟨0,true,.error .other,.error (.systoolsd .deviceBusy),fun _ => true⟩
      readRegister) =
      [.header { readRegister with cardErrno := 7 },.header { readRegister with cardErrno := 0 }] ∧
    ¬ Answered ⟨0,true,.error .other,.error (.systoolsd .deviceBusy),fun _ => true⟩
      readRegister .smcRw := by
  have hm : messages (served ⟨0,true,.error .other,.error (.systoolsd .deviceBusy),fun _ => true⟩
      readRegister) = [.header { readRegister with cardErrno := 7 },.header
      { readRegister with cardErrno := 0 }] := by
    decide
  exact ⟨hm,not_answered_twice (by decide) hm (mem_singleton_self _)⟩

end Mpss.Proofs.RequestsAnswered
