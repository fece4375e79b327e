import Mpss.Library.Runs
import Mpss.Proofs.CardState

namespace Mpss.Proofs.CardOnline
open Library.Runs Cosm.StateFlow CardState List Option

/-- Calls and messages move, and nothing else. -/
def Quiet (s t : Cdev) : Prop :=
  ∃ call abort work queue waiting,
    t = { s with call := call,abort := abort,work := work,queue := queue,waiting := waiting }

theorem enter_quiet (work : Work) (h : enter { s with work := work } cmd w = some t) : Quiet s t := by
  unfold enter at h
  split at h
  · cases h
  split at h
  all_goals
    cases h
    exact ⟨_,_,_,_,_,rfl⟩

theorem test_quiet (h : test s c = some t) : Quiet s t := by
  unfold test at h
  split at h
  all_goals
    cases h
    try exact ⟨_,s.abort,s.work,s.queue,s.waiting,rfl⟩

/-- Whoever is online, or about to be, was heard of since the boot began. -/
structure Heard (s : Cdev) : Prop where
  online : s.state = .online → s.boots ∈ s.heard
  leaving : ∀ cmd msg,s.flow = .running cmd (.exit .online msg) → s.boots ∈ s.heard
  received : ∀ pc,s.flow = .running .boot pc → pc ≠ .invoke → s.receivedOnline = true →
    s.boots ∈ s.heard
  unheard : s.flow = .pending ∧ s.id = .boot ∨ s.flow = .running .boot .invoke →
    s.receivedOnline = false

theorem probed_heard : Heard probed := by constructor <;> simp [probed]

/-- No message that was sent before the boot is handled during the command. -/
def Fresh (s : Cdev) (a : Act) : Prop :=
  ∀ m,a = .handle → s.work = .got m → m.change = true → m.state = .online → s.id = .boot →
    m.boot = s.boots ∧ ∃ pc,s.flow = .running .boot pc ∧ pc ≠ .invoke

theorem complete_online (hd : (complete s detected cmd).2.1 = true)
    (ht : (cosmCommands cmd).targetState = .online) : cmd = .boot ∧ s.receivedOnline = true := by
  cases cmd with
  | boot => exact ⟨rfl,hd⟩
  | _ => cases ht

section
variable (h : Heard s)
include h

theorem Heard.quiet (hq : Quiet s t) : Heard t := by
  obtain ⟨_,_,_,_,_,rfl⟩ := hq
  exact { h with }

theorem Heard.message (hs : Sound s) {m : CardMsg}
    (hf : s.id = .boot → m.boot = s.boots ∧ ∃ pc,s.flow = .running .boot pc ∧ pc ≠ .invoke) :
    Heard { s with receivedOnline := true,work := .poll,heard := m.boot :: s.heard } where
  online := fun hst => .tail _ (h.online hst)
  leaving := fun cmd msg hfl => .tail _ (h.leaving cmd msg hfl)
  received := fun pc hfl _ _ => by
    rw [(hf (hs.current _ _ hfl)).1]
    exact mem_cons_self
  unheard := fun hno => by
    have hid : s.id = .boot := by
      rcases hno with ⟨_,hid⟩ | hfl
      · exact hid
      · exact hs.current _ _ hfl
    obtain ⟨-,pc,hfl,hpc⟩ := hf hid
    rcases hno with ⟨hp,_⟩ | hi
    · rw [hp] at hfl
      cases hfl
    · rw [hi] at hfl
      cases hfl
      exact absurd rfl hpc

theorem Heard.cancel {id : MicCmd} :
    Heard { s with
      id := id,abort := abort,receivedOnline := false,flow := .pending,call := call } where
  online := h.online
  leaving := fun _ _ hf => by cases hf
  received := fun _ hf => by cases hf
  unheard := fun _ => rfl

theorem Heard.start (hf : s.flow = .pending) (ht : step s .start = some t) : Heard t := by
  have ho : (cosmCommands s.id).temporalState ≠ .online := by cases s.id <;> decide
  have hu : Flow.running s.id .invoke = .running .boot .invoke → s.receivedOnline = false := by
    intro hr
    apply h.unheard
    injection hr with hid
    exact .inl ⟨hf,hid⟩
  simp only [step,hf] at ht
  cases ht
  split
  all_goals
    refine ⟨?_,fun _ _ hr => (by cases hr),?_,fun hno => hu (hno.resolve_left fun hp => by cases hp.1)⟩
    rotate_left
    · intro _ hr hpc
      injection hr with _ hi
      exact absurd hi.symm hpc
  · exact fun hst => absurd hst ho
  · exact h.online

theorem Heard.invoke (hs : Sound s) (hf : s.flow = .running cmd .invoke)
    (ht : step s (.invoke a) = some t) : Heard t := by
  obtain ⟨v,f,n,l,heq,ho,_⟩ := invoke_spec s a cmd
  simp only [step,hf,heq] at ht
  cases ht
  have hl : ∀ c msg,Flow.running cmd
      (if (Cosm.StateFlow.invoke s a cmd).2.1 = true then FlowPc.complete
        else .exit .error (Cosm.StateFlow.invoke s a cmd).2.2) ≠ .running c (.exit .online msg) := by
    intro c msg hrn
    split at hrn <;> cases hrn
  by_cases hb : cmd = .boot
  · subst hb
    have hr := h.unheard (.inr hf)
    exact {
      online := fun hst => by
        rw [(hs.booting hf).1] at hst
        cases hst
      leaving := fun c msg hrn => absurd hrn (hl c msg)
      received := fun _ _ _ hon => by
        rw [hr] at hon
        cases hon
      unheard := fun _ => hr }
  · exact {
      online := fun hst => (ho hb).1 ▸ h.online hst
      leaving := fun c msg hrn => absurd hrn (hl c msg)
      received := fun _ hrn => by
        injection hrn with hc
        exact absurd hc hb
      unheard := fun hno => by
        rcases hno with ⟨hrn,_⟩ | hrn
        · cases hrn
        · injection hrn with hc
          exact absurd hc hb }

theorem Heard.moves (hf : s.flow = .running cmd pc) (hw : pc ≠ .invoke) (v f : Bool)
    (e : MicCmd) (hpc : pc' ≠ .invoke) (hl : ∀ msg,pc' = .exit .online msg → s.boots ∈ s.heard) :
    Heard { s with executeOnReady := e,vop := v,scif := f,flow := .running cmd pc' } where
  online := h.online
  leaving := fun _ msg hr => by
    cases hr
    exact hl msg rfl
  received := fun _ hr _ => by
    cases hr
    exact h.received pc hf hw
  unheard := fun hno => by
    rcases hno with ⟨hr,_⟩ | hr
    · cases hr
    · cases hr
      exact absurd rfl hpc

theorem Heard.complete (hf : s.flow = .running cmd .complete)
    (ht : step s (.complete detected) = some t) : Heard t := by
  obtain ⟨v,f,e,heq,_,_⟩ := complete_spec s detected cmd
  simp only [step,hf,heq] at ht
  cases ht
  apply h.moves hf (by simp)
  · split <;> simp
  intro msg hpc
  split at hpc
  · rename_i hd
    injection hpc with htr
    obtain ⟨rfl,hr⟩ := complete_online hd htr
    exact h.received .complete hf (by simp) hr
  · cases hpc

theorem Heard.over {id : MicCmd} : Heard { s with id := id,flow := .idle } where
  online := h.online
  leaving := fun _ _ hr => by cases hr
  received := fun _ hr => by cases hr
  unheard := fun hno => by rcases hno with ⟨hr,_⟩ | hr <;> cases hr

theorem Heard.check (hf : s.flow = .running cmd .check) (ht : step s (.check timedOut) = some t) :
    Heard t := by
  simp only [step,hf] at ht
  split at ht
  · cases ht
    apply h.moves hf (by simp) <;> simp
  split at ht
  · cases ht
    exact h.over
  · cases ht
    apply h.moves hf (by simp) <;> simp

theorem Heard.exit (hf : s.flow = .running cmd (.exit st msg)) (ht : step s .exit = some t) :
    Heard t := by
  simp only [step,hf] at ht
  cases ht
  exact {
    online := fun hst => by
      have ho : st = .online := hst
      exact h.leaving cmd msg (ho ▸ hf)
    leaving := fun _ _ hr => by cases hr
    received := fun _ hr _ => by
      cases hr
      exact h.received _ hf (by simp)
    unheard := fun hno => by rcases hno with ⟨hr,_⟩ | hr <;> cases hr }

theorem Heard.step (hs : Sound s) (hf : Fresh s a) (ht : step s a = some t) : Heard t := by
  cases step_cases ht with
  | test _ ht => exact h.quiet (test_quiet ht)
  | cancel => exact h.cancel
  | leave => exact h.quiet ⟨_,s.abort,s.work,s.queue,s.waiting,rfl⟩
  | start hp => exact h.start hp ht
  | invoke hr => exact h.invoke hs hr ht
  | complete hr => exact h.complete hr ht
  | check hr => exact h.check hr ht
  | exit hr => exact h.exit hr ht
  | clear hr =>
    simp only [Cosm.StateFlow.step,hr] at ht
    cases ht
    exact h.over
  | online hw hc ho => exact h.message hs (hf _ rfl hw hc ho)
  | enter _ ht => exact h.quiet (enter_quiet _ ht)
  | moved => exact h.quiet ⟨s.call,s.abort,_,_,_,rfl⟩

end

theorem run_sound (hr : exec step probed as = some t) : Sound t :=
  exec_invariant (fun _ _ _ hs _ ht => hs.step ht) probed_sound
    (Along.always (fun _ _ => trivial) probed as) hr

theorem run_heard (hf : Along step Fresh probed as) (hr : exec step probed as = some t) : Heard t := by
  have hb : ∀ s a t,Sound s ∧ Heard s → Fresh s a → step s a = some t → Sound t ∧ Heard t :=
    fun _ _ _ hs ha ht => ⟨hs.1.step ht,hs.2.step hs.1 ha ht⟩
  exact (exec_invariant hb ⟨probed_sound,probed_heard⟩ hf hr).2

/-- No temporal state is left behind, and a boot finds no device registered. Without late messages a
card that is online was heard of since its boot began. -/
theorem card_state_consistent (hrun : exec step probed as = some t) :
    (t.id = .none → temporal t.state = false) ∧ (∀ devices ∈ t.bootLog,devices = (false,false)) ∧
      (Along step Fresh probed as → t.state = .online → t.boots ∈ t.heard) :=
  ⟨fun hid => ((run_sound hrun).idle hid).2,(run_sound hrun).log,fun hfresh =>
    (run_heard hfresh hrun).online⟩

def command (cmd : MicCmd) (a : Answers) : List Act :=
  [.user cmd,.test,.test,.test,.test,.cancel,.leave,.start,.invoke a]

def fine : Answers := ⟨true,.unknown,false,true,.booted⟩

def resetAndBoot : List Act :=
  command .reset fine ++ [.complete .ready,.exit,.clear] ++ command .boot fine ++
    [.connect,.accept,.send false true .online,.recv]

theorem fresh_of_other (h : ∀ a ∈ as,a ≠ .handle) : Along step Fresh s as := by
  induction as generalizing s with
  | nil => trivial
  | cons a as ih =>
    refine ⟨fun m hm => absurd hm (h a mem_cons_self),fun t _ => ?_⟩
    exact ih (forall_mem_cons.mp h).2

def bootToOnline : List Act := resetAndBoot ++ [.handle,.complete .unknown,.exit,.clear]

theorem bootToOnline_fresh : Along step Fresh probed bootToOnline := by
  obtain ⟨t,ht⟩ : ∃ t,exec step probed resetAndBoot = some t := ⟨_,rfl⟩
  have hat : (exec step probed resetAndBoot).map (fun s => (s.work,s.boots,s.flow)) =
      some (.got ⟨true,.online,1⟩,1,.running .boot .complete) := rfl
  rw [ht] at hat
  obtain ⟨hw,hb,hf⟩ : t.work = .got ⟨true,.online,1⟩ ∧ t.boots = 1 ∧
    t.flow = .running .boot .complete := by
    simpa using hat
  apply Along.append (fresh_of_other (by simp [resetAndBoot,command])) ht
  refine ⟨fun m _ hm _ _ _ => ?_,fun u _ => fresh_of_other (by simp)⟩
  rw [hw] at hm
  cases hm
  exact ⟨hb.symm,.complete,hf,by simp⟩

theorem booted_card_online :
    ∃ t,exec step probed bootToOnline = some t ∧ t.state = .online ∧ t.boots ∈ t.heard := by
  obtain ⟨t,ht⟩ : ∃ t,exec step probed bootToOnline = some t := ⟨_,rfl⟩
  have hat : (exec step probed bootToOnline).map Cdev.state = some .online := rfl
  rw [ht] at hat
  have ho : t.state = .online := some.inj hat
  exact ⟨t,ht,ho,(card_state_consistent ht).2.2 bootToOnline_fresh ho⟩

/-- The first boot is aborted after the card has reported itself; the report is handled during the
second. -/
def lateReport : List Act :=
  resetAndBoot ++ [.complete .unknown,.user .resetForce,.check false,.cancel,.leave,
    .start,.invoke fine,
    .complete .ready,.exit,.clear] ++ command .boot fine ++ [.handle,.complete .unknown,.exit,.clear]

theorem late_report_makes_online : ∃ t,exec step probed lateReport = some t ∧ t.state = .online ∧
    t.boots ∉ t.heard :=
  ⟨_,rfl,rfl,by decide⟩

/-- In every run a flow works on the current command, only a command that aborts replaces another
one, and a boot is chosen in READY, where the card has no devices. -/
theorem commands_exclusive (as : List Act) (hr : exec step probed as = some t) :
    (∀ cmd pc,t.flow = .running cmd pc → t.id = cmd) ∧
      (t.state = .ready → t.vop = false ∧ t.scif = false) ∧ ∀ u,step t .cancel = some u →
        (t.id ≠ .none → (cosmCommands u.id).abortCurrent = true) ∧
        (u.id = .boot → t.state = .ready) := by
  have h := run_sound hr
  refine ⟨h.current,h.ready,?_⟩
  intro u hu
  obtain ⟨c,hc,hu⟩ := bind_eq_some_iff.mp hu
  obtain ⟨hp,hu⟩ := ite_none_right_eq_some.mp hu
  have hid : u.id = c.cmd := by
    unfold cancel at hu
    split at hu <;> cases hu <;> rfl
  rw [hid]
  refine ⟨fun hi => ?_,h.chosen c hc hp⟩
  by_contra ha
  exact hi (h.free c hc (.inr hp) (Bool.not_eq_true _ ▸ ha))

/-- A boot that a forced reset is about to replace. -/
def bootReplaced : List Act := resetAndBoot ++ [.complete .unknown,.user .resetForce,.check false]

/-- A boot that is chosen after a reset. -/
def bootChosen : List Act :=
  command .reset fine ++ [.complete .ready,.exit,.clear,.user .boot,.test,.test,.test,.test]

theorem boot_exclusive :
    (∃ t u,exec step probed bootReplaced = some t ∧ step t .cancel = some u ∧ t.id = .boot ∧
      u.id = .resetForce ∧ (cosmCommands u.id).abortCurrent = true) ∧
    ∃ t u,exec step probed bootChosen = some t ∧ step t .cancel = some u ∧ u.id = .boot ∧
      t.state = .ready := by
  refine ⟨⟨_,_,rfl,rfl,rfl,rfl,?_⟩,⟨_,_,rfl,rfl,rfl,?_⟩⟩
  · exact ((commands_exclusive bootReplaced rfl).2.2 _ rfl).1 (by decide)
  · exact ((commands_exclusive bootChosen rfl).2.2 _ rfl).2 rfl

end Mpss.Proofs.CardOnline
