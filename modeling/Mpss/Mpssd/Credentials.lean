import Mathlib.Algebra.Order.Ring.Int

namespace Mpss.Mpssd.Credentials
open Function

def MPSS_COOKIE_SIZE : Nat := 8

def REQ_CREDENTIAL : Nat := 4

inductive Field
  | word (n : Nat)
  | bytes (b : List UInt8)
deriving DecidableEq

/-- The bytes that a send of `len` bytes takes from memory. -/
def memory (p : Nat → UInt8) (len : Nat) : List UInt8 := (List.range len).map p

def request (jobid len : Nat) (username cookie : Nat → UInt8) : List Field :=
  [.word REQ_CREDENTIAL,.word jobid,.word len,.bytes (memory username len),.word MPSS_COOKIE_SIZE,
    .bytes (memory cookie MPSS_COOKIE_SIZE)]

/-- The loop of `mic_credentials`: what each card is sent, when the sends are accepted. A card is
connected or not. -/
def sendCredentials (jobid : Nat) (username cookie : Nat → UInt8) : Nat → List Bool → List (List Field)
  | _,[] => []
  | len,false :: cards => [] :: sendCredentials jobid username cookie len cards
  | len,true :: cards =>
    request jobid len username cookie :: sendCredentials jobid username cookie MPSS_COOKIE_SIZE cards

/-- `jobs` is the list `gjobs` of mpss3, the map `m_job` of mpss4; `told` are the jobs answered with
`CRED_SUCCESS`; `owed` has the cards that were sent a job and have neither answered it nor gone. -/
structure Daemon (cards : Nat) where
  nextjobid : Nat
  jobs : List Nat
  cnt : Nat → Nat
  sendEp : Fin cards → Bool
  told : List Nat
  owed : Nat → List (Fin cards)

variable {cards : Nat}

/-- A request finds some connections reset; cards answer, with or without an acknowledgement, or
go. -/
inductive Event (cards : Nat)
  | request (reset : Fin cards → Bool)
  | answer (card : Fin cards) (jobid : Nat)
  | connect (card : Fin cards)
  | gone (card : Fin cards)

variable (s : Daemon cards)

def sentTo (reset : Fin cards → Bool) : List (Fin cards) :=
  (List.finRange cards).filter fun c => s.sendEp c && !reset c

def addJob (cnt : Nat) (sent : List (Fin cards)) : Daemon cards :=
  { s with
    nextjobid := s.nextjobid + 1
    jobs := if cnt = 0 then s.jobs else s.jobs ++ [s.nextjobid]
    cnt := update s.cnt s.nextjobid cnt
    told := if cnt = 0 then s.nextjobid :: s.told else s.told
    owed := update s.owed s.nextjobid sent }

variable (card : Fin cards)

def answered (jobid : Nat) : Daemon cards :=
  { s with owed := update s.owed jobid ((s.owed jobid).erase card) }

/-- The counter, read as `cnt`, is decremented and written; at 0 the job leaves the list. -/
def decrease (jobid cnt : Nat) : Daemon cards :=
  { answered s card jobid with
    cnt := update s.cnt jobid (cnt - 1)
    jobs := if cnt = 1 then s.jobs.erase jobid else s.jobs }

def reply (jobid : Nat) : Daemon cards := { s with told := jobid :: s.told }

def setEp (up : Bool) : Daemon cards :=
  { s with
    sendEp := update s.sendEp card up,owed := if up then s.owed else fun j => (s.owed j).erase card }

def closeAuthenticationJob (jobid : Nat) : Daemon cards :=
  if jobid ∈ s.jobs then
    let t := decrease s card jobid (s.cnt jobid)
    if s.cnt jobid = 1 then reply t jobid else t
  else answered s card jobid

/-- `coi_authenticate_thread` and `card_monitor_thread` of mpss4, each under `m_job_mutex`: the send
routine returns 0 for a card that is not connected, which is counted. -/
def coiAuthenticate : Event cards → Option (Daemon cards)
  | .request reset =>
    let counted := (List.finRange cards).filter fun c => !(s.sendEp c && reset c)
    some (addJob s counted.length (sentTo s reset))
  | .answer card jobid => if s.sendEp card then some (closeAuthenticationJob s card jobid) else none
  | .connect card => some (setEp s card true)
  | .gone card => some (setEp s card false)

def start (sendEp : Fin cards → Bool) : Daemon cards := ⟨100,[],fun _ => 0,sendEp,[],fun _ => []⟩

/-- Where a thread of mpss3 stands: before and behind the lock with a request or with an answer,
with the counter read, before and behind the unlock of a job that is done, and before the last
unlock. -/
inductive Pc (cards : Nat)
  | idle
  | request (reset : Fin cards → Bool)
  | sending (reset : Fin cards → Bool)
  | answer (jobid : Nat)
  | search (jobid : Nat)
  | count (jobid cnt : Nat)
  | release (jobid : Nat)
  | reply (jobid : Nat)
  | unlock

/-- The thread of `mic_credentials` is `none`, the `monitor` of a card `some card`. -/
structure Threads (cards : Nat) where
  daemon : Daemon cards
  jobsLock : Bool
  pc : Option (Fin cards) → Pc cards

variable (s : Threads cards)

def Threads.go (t : Option (Fin cards)) (pc : Pc cards) (daemon : Daemon cards) : Threads cards :=
  { s with daemon := daemon,pc := update s.pc t pc }

def Threads.lock (t : Option (Fin cards)) (pc : Pc cards) : Option (Threads cards) :=
  if s.jobsLock then none else some { s.go t pc s.daemon with jobsLock := true }

def Threads.unlock (t : Option (Fin cards)) (pc : Pc cards) : Threads cards :=
  { s.go t pc s.daemon with jobsLock := false }

/-- The next step of a thread. After `CRED_SUCCESS` the `continue` of `monitor` is that of the inner
loop, which ends without finding the job again, and `jobs_lock` is unlocked a second time. -/
def threadStep (t : Option (Fin cards)) : Option (Threads cards) :=
  match s.pc t with
  | .idle => none
  | .request reset => s.lock t (.sending reset)
  | .sending reset =>
    let sent := sentTo s.daemon reset
    some (s.go t .unlock (addJob s.daemon sent.length sent))
  | .answer jobid => s.lock t (.search jobid)
  | .search jobid =>
    some (if jobid ∈ s.daemon.jobs then s.go t (.count jobid (s.daemon.cnt jobid)) s.daemon
      else s.go t .unlock (t.elim s.daemon (answered s.daemon · jobid)))
  | .count jobid cnt =>
    some (s.go t (if cnt = 1 then .release jobid else .unlock)
      (t.elim s.daemon (decrease s.daemon · jobid cnt)))
  | .release jobid => some (s.unlock t (.reply jobid))
  | .reply jobid => some (s.go t .unlock (reply s.daemon jobid))
  | .unlock => some (s.unlock t .idle)

inductive Act (cards : Nat)
  | event (e : Event cards)
  | turn (thread : Option (Fin cards))

/-- `mic_credentials` and `monitor` of mpss3. -/
def micCredentials : Act cards → Option (Threads cards)
  | .turn t => threadStep s t
  | .event (.request reset) =>
    match s.pc none with
    | .idle => some (s.go none (.request reset) s.daemon)
    | _ => none
  | .event (.answer card jobid) =>
    match s.pc (some card),s.daemon.sendEp card with
    | .idle,true => some (s.go (some card) (.answer jobid) s.daemon)
    | _,_ => none
  | .event (.gone card) =>
    match s.pc (some card) with
    | .idle => some { s with daemon := setEp s.daemon card false }
    | _ => none
  | .event (.connect card) => some { s with daemon := setEp s.daemon card true }

def boot (sendEp : Fin cards → Bool) : Threads cards := ⟨start sendEp,false,fun _ => .idle⟩

end Mpss.Mpssd.Credentials
