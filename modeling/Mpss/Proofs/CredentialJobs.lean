import Mathlib.Data.Fintype.Option
import Mpss.Library.Runs
import Mpss.Mpssd.Credentials

namespace Mpss.Proofs.CredentialJobs
open Library.Runs Mpssd.Credentials List Function

/-- The reader on the card: two fields behind their lengths. -/
def readRequest : List Field → Option (List UInt8 × List UInt8)
  | [.word _,.word _,.word n,.bytes username,.word m,.bytes cookie] =>
    if username.length = n ∧ cookie.length = m then some (username,cookie) else none
  | _ => none

def Framed (jobid len : Nat) (username cookie : Nat → UInt8) (connected : Bool)
    (w : List Field) : Prop :=
  if connected then w = request jobid len username cookie ∧
    readRequest w = some (memory username len,memory cookie MPSS_COOKIE_SIZE) else w = []

theorem framed_iff : Framed jobid len username cookie true
    (request jobid n username cookie) ↔ n = len := by
  constructor
  · intro h
    have hr := h.1
    simp only [request,cons.injEq,Field.word.injEq] at hr
    exact hr.2.2.1
  · rintro rfl
    exact ⟨rfl,by simp [request,readRequest,memory]⟩

theorem framed_from (cards : List Bool) (n : Nat) :
    Forall₂ (Framed jobid len username cookie) cards (sendCredentials jobid username cookie n cards)
      ↔ cards.count true = 0 ∨ n = len ∧ (cards.count true ≤ 1 ∨ len = MPSS_COOKIE_SIZE) := by
  induction cards generalizing n with
  | nil => simp [sendCredentials]
  | cons connected cards ih =>
    cases connected with
    | false => simp [sendCredentials,ih,Framed]
    | true =>
      simp only [sendCredentials,forall₂_cons,framed_iff,ih,count_cons_self]
      omega

/-- The length of the cookie stays in `len`: the second card gets it as the length of the user
name. -/
theorem requests_framed_iff (jobid len : Nat) (username cookie : Nat → UInt8) (cards : List Bool) :
    Forall₂ (Framed jobid len username cookie) cards
      (sendCredentials jobid username cookie len cards) ↔
      cards.count true ≤ 1 ∨ len = MPSS_COOKIE_SIZE := by
  rw [framed_from]
  omega

theorem second_card_unframed : ¬ Forall₂ (Framed 100 4 (fun _ => 114) (fun _ => 0)) [true,true]
    (sendCredentials 100 (fun _ => 114) (fun _ => 0) 4 [true,true]) := by
  rw [framed_from]
  decide

variable {cards : Nat} {s t : Daemon cards} {due : Nat → Prop}

/-- The counters are those of the cards still to answer, the jobs with such cards are on the list,
and every other one is answered or, where `due` says so, about to be. -/
structure Counted (due : Nat → Prop) (s : Daemon cards) : Prop where
  cnt : ∀ j,s.cnt j = (s.owed j).length
  jobs : ∀ j,j ∈ s.jobs ↔ s.owed j ≠ []
  nodup : s.jobs.Nodup
  fresh : ∀ j,s.nextjobid ≤ j → s.owed j = [] ∧ j ∉ s.told
  once : s.told.Nodup
  told : ∀ j ∈ s.told,s.owed j = []
  unanswered : ∀ j,due j → s.owed j = [] ∧ j < s.nextjobid ∧ j ∉ s.told
  rest : ∀ j,100 ≤ j → j < s.nextjobid → s.owed j = [] → j ∈ s.told ∨ due j

theorem Counted.added (h : Counted due s) (sent : List (Fin cards)) :
    Counted due (addJob s sent.length sent) := by
  obtain ⟨hf,ht⟩ := h.fresh s.nextjobid le_rfl
  obtain ⟨hc,hjs,hn,hfr,ho,htl,hd,hr⟩ := h
  unfold addJob
  constructor <;> grind [update_apply]

theorem Counted.decreased (h : Counted due s) (hc : card ∈ s.owed jobid) :
    Counted (fun j => due j ∨ j = jobid ∧ s.cnt jobid = 1) (decrease s card jobid (s.cnt jobid)) := by
  have hl := length_erase_of_mem hc
  have he : (s.owed jobid).erase card = [] ↔ s.cnt jobid = 1 := by
    rw [h.cnt,← length_eq_zero_iff,hl]
    have := length_pos_of_mem hc
    omega
  obtain ⟨hc,hjs,hn,hfr,ho,htl,hd,hr⟩ := h
  unfold decrease answered
  constructor <;> grind [update_apply]

theorem Counted.replied (h : Counted due s) (hd : due k) :
    Counted (fun j => due j ∧ j ≠ k) (reply s k) := by
  obtain ⟨hc,hjs,hn,hfr,ho,htl,hd,hr⟩ := h
  unfold reply
  constructor <;> grind

variable (sendEp : Fin cards → Bool)

theorem Counted.begin : Counted (fun _ => False) (start sendEp) := by
  constructor <;> grind [start]

/-- A card that goes owes nothing, so that nothing changes for the jobs. -/
theorem Counted.setEp_eq (h : Counted due s) (ho : up = true ∨ ∀ j < s.nextjobid,card ∉ s.owed j) :
    setEp s card up = { s with sendEp := update s.sendEp card up } := by
  unfold setEp
  cases up with
  | true => rfl
  | false =>
    have hn : ∀ j,card ∉ s.owed j := by
      intro j
      by_cases hj : j < s.nextjobid
      · exact ho.resolve_left Bool.false_ne_true j hj
      · simp [(h.fresh j (by omega)).1]
    simp [erase_of_not_mem,hn]

theorem Counted.connection (h : Counted due s)
    (ho : up = true ∨ ∀ j < s.nextjobid,card ∉ s.owed j) : Counted due (setEp s card up) := by
  rw [h.setEp_eq ho]
  exact ⟨h.cnt,h.jobs,h.nodup,h.fresh,h.once,h.told,h.unanswered,h.rest⟩

/-- A card answers each job that it was sent once, and before it goes. -/
def Owing (s : Daemon cards) : Event cards → Prop
  | .answer c j => c ∈ s.owed j
  | .gone c => ∀ j < s.nextjobid,c ∉ s.owed j
  | _ => True

def isRequest : Event cards → Bool
  | .request _ => true
  | _ => false

/-- The same, and every card is connected at each request. -/
def Connected (s : Daemon cards) (e : Event cards) : Prop :=
  Owing s e ∧ (isRequest e = true → ∀ c,s.sendEp c = true)

theorem Counted.step (h : Counted (fun _ => False) s) (e : Event cards) (ho : Connected s e)
    (hs : coiAuthenticate s e = some t) : Counted (fun _ => False) t := by
  cases e with
  | request reset =>
    cases hs
    have he : (finRange cards).filter (fun c => !(s.sendEp c && reset c)) = sentTo s reset := by
      apply filter_congr
      intro c hc
      simp [ho.2 rfl c]
    rw [he]
    exact h.added _
  | answer c j =>
    apply of_guard hs
    intro _
    have hj := (h.jobs j).mpr (ne_nil_of_mem ho.1)
    have hd := h.decreased ho.1
    unfold closeAuthenticationJob
    simp only [if_pos hj]
    split
    · have := hd.replied (k := j) (.inr ⟨rfl,‹_›⟩)
      convert this using 2
      grind
    · convert hd using 2
      grind
  | connect c =>
    cases hs
    exact h.connection (.inl rfl)
  | gone c =>
    cases hs
    exact h.connection (.inr ho.1)

/-- The requester is answered at most once and not before each card has answered or gone; then the
job is off. -/
structure Finished (s : Daemon cards) (jobid : Nat) : Prop where
  once : s.told.count jobid ≤ 1
  after : jobid ∈ s.told → s.owed jobid = []
  off : s.owed jobid = [] → jobid ∉ s.jobs

theorem coi_jobs_finished (es : List (Event cards))
    (ha : Along coiAuthenticate Connected (start sendEp) es)
    (he : exec coiAuthenticate (start sendEp) es = some t) (jobid : Nat) : Finished t jobid := by
  have h := exec_invariant (fun s e u hs ho hu => Counted.step hs e ho hu) (.begin sendEp) ha he
  exact ⟨nodup_iff_count_le_one.mp h.once jobid,h.told jobid,fun ho hj => (h.jobs jobid).mp hj ho⟩

instance : ∀ e,Decidable (Owing s e)
  | .answer c j => inferInstanceAs (Decidable (c ∈ s.owed j))
  | .gone c => inferInstanceAs (Decidable (∀ j < s.nextjobid,c ∉ s.owed j))
  | .request _ | .connect _ => .isTrue trivial

instance : Decidable (Connected s e) := inferInstanceAs (Decidable (_ ∧ _))

/-- Two jobs for two cards, one of which has been away between them. -/
def cardReturns : List (Event 2) :=
  [.request fun _ => false,.answer 1 100,.gone 1,.answer 0 100,.connect 1,.request fun c =>
    c == 0,.answer 1 101]

theorem card_returns_finished :
    (exec coiAuthenticate (start fun _ => true) cardReturns).any (fun t => t.told = [101,100]) ∧
      ∀ t,exec coiAuthenticate (start fun _ => true) cardReturns = some t → ∀ jobid,Finished t jobid :=
  ⟨by decide,fun _ ht => coi_jobs_finished _ _ (by decide) ht⟩

/-- One card that is not connected, and a request. -/
theorem unconnected_card_keeps_job :
    ¬ ∀ t,exec coiAuthenticate (start fun _ : Fin 1 => false) [.request fun _ => false] = some t →
      Finished t 100 := by
  intro h
  exact (h _ rfl).off rfl (by decide)

/-- Between the lock and the last unlock. -/
def Inside : Pc cards → Prop
  | .idle | .request _ | .answer _ => False
  | _ => True

/-- The thread has an answer to this job that is not counted yet. -/
def Holds (jobid : Nat) : Pc cards → Prop
  | .answer j | .search j | .count j _ => j = jobid
  | _ => False

/-- The thread has taken the job off the list and is about to answer it. -/
def Leaves (jobid : Nat) : Pc cards → Prop
  | .release j | .reply j => j = jobid
  | _ => False

/-- `jobs_lock` is taken only while no other thread is between its lock and its last unlock. -/
def Orderly (s : Threads cards) : Act cards → Prop
  | .event e => Owing s.daemon e
  | .turn t => Inside (s.pc t) ∨ ∀ u,¬ Inside (s.pc u)

structure Inv (s : Threads cards) : Prop where
  counted : Counted (fun j => ∃ t,Leaves j (s.pc t)) s.daemon
  alone : ∀ t u,Inside (s.pc t) → Inside (s.pc u) → t = u
  locked : s.jobsLock = true → ∃ t,Inside (s.pc t)
  holds : ∀ t j,Holds j (s.pc t) → ∃ card ∈ s.daemon.owed j,t = some card
  read : ∀ t j n,s.pc t = .count j n → n = s.daemon.cnt j

variable {s t : Threads cards}

theorem Leaves.inside (h : Leaves j p) : Inside p := by
  cases p with
  | release | reply => trivial
  | _ => exact h.elim

theorem Inv.only (h : Inv s) (ho : Orderly s (.turn u)) : ∀ v,v ≠ u → ¬ Inside (s.pc v) :=
  ho.elim (fun hu v hne hv => hne (h.alone v u hv hu)) (fun hn v _ => hn v)

/-- Only the thread that takes a step can be about to answer a job. -/
theorem Inv.leaving (h : Inv s) (hn : ∀ v,v ≠ u → ¬ Inside (s.pc v)) :
    Counted (Leaves · (s.pc u)) s.daemon := by
  convert h.counted using 2 with j
  refine ⟨fun hl => ⟨u,hl⟩,fun ⟨v,hv⟩ => ?_⟩
  by_cases hv' : v = u
  · exact hv' ▸ hv
  · exact (hn v hv' hv.inside).elim

/-- What a thread may do while no other one is at the list. -/
theorem Inv.moved (hn : ∀ v,v ≠ u → ¬ Inside (s.pc v)) (hc : Counted (Leaves · p) d)
    (hl : lock = true → Inside p)
    (hh : ∀ v j,v ≠ u → Holds j (s.pc v) → ∃ card ∈ d.owed j,v = some card)
    (hp : ∀ j,Holds j p → ∃ card ∈ d.owed j,u = some card) (hr : ∀ j n,p = .count j n → n = d.cnt j) :
    Inv ⟨d,lock,update s.pc u p⟩ := by
  have ho : ∀ v,Inside (update s.pc u p v) → v = u := by
    intro v hv
    by_contra hne
    rw [update_of_ne hne] at hv
    exact hn v hne hv
  refine ⟨?_,fun v w hv hw => (ho v hv).trans (ho w hw).symm,fun he => ⟨u,by simpa using hl he⟩,?_,?_⟩
  · convert hc using 2 with j
    exact ⟨fun ⟨v,hv⟩ => by simpa [ho v hv.inside] using hv,fun hl => ⟨u,by simpa using hl⟩⟩
  · intro v j hv
    by_cases hne : v = u
    · subst hne
      exact hp j (by simpa using hv)
    · exact hh v j hne (by simpa [update_of_ne hne] using hv)
  · intro v j n hv
    have hv : update s.pc u p v = .count j n := hv
    obtain rfl := ho v (hv ▸ trivial)
    exact hr j n (by simpa using hv)

theorem Inv.turn (h : Inv s) (ho : Orderly s (.turn u)) (hs : threadStep s u = some t) : Inv t := by
  have hn := h.only ho
  have hc := h.leaving hn
  unfold threadStep at hs
  cases hp : s.pc u with
  | idle => simp [hp] at hs
  | request reset =>
    simp only [hp,Threads.lock] at hs hc
    exact of_unless hs fun _ => .moved hn hc (fun _ => trivial) (fun v j _ => h.holds v j)
      (by simp [Holds]) (by simp)
  | answer j =>
    simp only [hp,Threads.lock] at hs hc
    refine of_unless hs fun _ => .moved hn hc (fun _ => trivial)
      (fun v j _ => h.holds v j) ?_ (by simp)
    exact fun k hk => h.holds u k (hp ▸ hk)
  | sending reset =>
    simp only [hp,Option.some.injEq] at hs hc
    subst hs
    refine .moved hn (hc.added _) (fun _ => trivial) ?_ (by simp [Holds]) (by simp)
    intro v j _ hv
    obtain ⟨card,hm,rfl⟩ := h.holds v j hv
    have hne : j ≠ s.daemon.nextjobid := by
      rintro rfl
      simp [(hc.fresh _ le_rfl).1] at hm
    exact ⟨card,by simpa [addJob,update_of_ne hne] using hm,rfl⟩
  | search j =>
    obtain ⟨card,hm,rfl⟩ := h.holds u j (by simp [hp,Holds])
    simp only [hp,if_pos ((hc.jobs j).mpr (ne_nil_of_mem hm)),Option.some.injEq] at hs hc
    subst hs
    refine .moved hn hc (fun _ => trivial) (fun v j _ => h.holds v j) ?_ (by simp)
    rintro j rfl
    exact ⟨card,hm,rfl⟩
  | count j n =>
    obtain ⟨card,hm,rfl⟩ := h.holds u j (by simp [hp,Holds])
    obtain rfl := h.read _ j n hp
    simp only [hp,Option.elim_some,Option.some.injEq] at hs hc
    subst hs
    refine .moved hn ?_ ?_ ?_ ?_ ?_
    · convert hc.decreased hm using 2 with k
      split <;> simp_all [Leaves,eq_comm]
    · split <;> simp [Inside]
    · intro v k hne hv
      obtain ⟨c,hcm,rfl⟩ := h.holds v k hv
      refine ⟨c,?_,rfl⟩
      by_cases hk : k = j
      · subst hk
        simpa [decrease,answered] using (mem_erase_of_ne (by simpa using hne)).mpr hcm
      · simpa [decrease,answered,update_of_ne hk] using hcm
    · split <;> simp [Holds]
    · split <;> simp
  | reply j =>
    simp only [hp,Option.some.injEq] at hs hc
    subst hs
    refine .moved hn ?_ (fun _ => trivial) (fun v j _ => h.holds v j) (by simp [Holds]) (by simp)
    convert hc.replied (k := j) rfl using 2 with k
    simp [Leaves,eq_comm]
  | release j | unlock =>
    simp only [hp,Option.some.injEq] at hs hc
    subst hs
    exact .moved hn hc (by simp) (fun v j _ => h.holds v j) (by simp [Holds]) (by simp)

/-- A thread that is not at the list changes nothing there. -/
theorem Inv.outside (h : Inv s) (hi : s.pc u = .idle) (hp : ¬ Inside p)
    (hh : ∀ j,Holds j p → ∃ card ∈ s.daemon.owed j,u = some card) : Inv (s.go u p s.daemon) := by
  have hq : ∀ (Q : Pc cards → Prop),¬ Q p → ¬ Q .idle → ∀ v,Q (update s.pc u p v) ↔ Q (s.pc v) := by
    intro Q hq hq' v
    by_cases hv : v = u
    · subst hv
      simp [hi,hq,hq']
    · rw [update_of_ne hv]
  have hin := hq Inside hp id
  refine ⟨?_,?_,?_,?_,?_⟩
  · show Counted _ s.daemon
    convert h.counted using 2 with j
    exact exists_congr (hq (Leaves j) (fun hl => hp hl.inside) id)
  · exact fun v w hv hw => h.alone v w ((hin v).mp hv) ((hin w).mp hw)
  · exact fun hl => (exists_congr hin).mpr (h.locked hl)
  · intro v j hv
    by_cases hne : v = u
    · subst hne
      exact hh j (by simpa [Threads.go] using hv)
    · exact h.holds v j (by simpa [Threads.go,update_of_ne hne] using hv)
  · intro v j n hv
    exact h.read v j n ((hq (· = .count j n) (by rintro rfl; exact hp trivial) (by simp) v).mp hv)

theorem Inv.connection (h : Inv s) (ho : up = true ∨ ∀ j < s.daemon.nextjobid,card ∉ s.daemon.owed j) :
    Inv { s with daemon := setEp s.daemon card up } := by
  have hc := h.counted.connection ho
  rw [h.counted.setEp_eq ho] at hc ⊢
  exact ⟨hc,h.alone,h.locked,h.holds,h.read⟩

theorem Inv.step (h : Inv s) (a : Act cards) (ho : Orderly s a) (hs : micCredentials s a = some t) :
    Inv t := by
  unfold micCredentials at hs
  cases a with
  | turn u => exact h.turn ho hs
  | event e =>
    cases e with
    | request reset =>
      cases hp : s.pc none with
      | idle =>
        simp only [hp,Option.some.injEq] at hs
        exact hs ▸ h.outside hp id (fun _ => False.elim)
      | _ => simp [hp] at hs
    | answer c j =>
      cases hp : s.pc (some c) with
      | idle =>
        simp only [hp] at hs
        split at hs
        · cases hs
          exact h.outside hp id (fun k hk => ⟨c,hk ▸ ho,rfl⟩)
        · simp at hs
      | _ => simp [hp] at hs
    | connect c =>
      cases hs
      exact h.connection (.inl rfl)
    | gone c =>
      cases hp : s.pc (some c) with
      | idle =>
        simp only [hp,Option.some.injEq] at hs
        exact hs ▸ h.connection (.inr ho)
      | _ => simp [hp] at hs

/-- The requester is answered at most once and not before each card has answered or gone; when no
thread can go on, the job is answered and off the list. -/
@[mk_iff] structure Answered (s : Threads cards) (jobid : Nat) : Prop where
  once : s.daemon.told.count jobid ≤ 1
  after : jobid ∈ s.daemon.told → s.daemon.owed jobid = []
  off : (∀ t,threadStep s t = none) → 100 ≤ jobid → jobid < s.daemon.nextjobid →
    s.daemon.owed jobid = [] → jobid ∈ s.daemon.told ∧ jobid ∉ s.daemon.jobs

/-- The lock is free while no thread is at the list, so that every thread has come to its end. -/
theorem Inv.idle (h : Inv s) (hs : ∀ u,threadStep s u = none) (u : Option (Fin cards)) :
    s.pc u = .idle := by
  have hout : ∀ v,¬ Inside (s.pc v) := by
    intro v hv
    have := hs v
    unfold threadStep at this
    cases hp : s.pc v <;> simp_all [Inside]
  have hlk : s.jobsLock = false := by
    by_contra hl
    obtain ⟨v,hv⟩ := h.locked (by simpa using hl)
    exact hout v hv
  have := hs u
  unfold threadStep Threads.lock at *
  cases hp : s.pc u <;> simp_all [Inside]

instance : DecidablePred (@Inside cards)
  | .idle | .request _ | .answer _ => .isFalse id
  | .sending _ | .search _ | .count .. | .release _ | .reply _ | .unlock => .isTrue trivial

instance : ∀ a,Decidable (Orderly s a)
  | .turn u => inferInstanceAs (Decidable (Inside (s.pc u) ∨ ∀ v,¬ Inside (s.pc v)))
  | .event e => inferInstanceAs (Decidable (Owing s.daemon e))

instance : Decidable (Answered s jobid) := decidable_of_iff _ (answered_iff s jobid).symm

def turns (u : Option (Fin cards)) (n : Nat) : List (Act cards) := replicate n (.turn u)

def asks (reset : Fin cards → Bool) : List (Act cards) := .event (.request reset) :: turns none 3

def answers (card : Fin cards) (jobid n : Nat) : List (Act cards) :=
  .event (.answer card jobid) :: turns (some card) n

end Mpss.Proofs.CredentialJobs
