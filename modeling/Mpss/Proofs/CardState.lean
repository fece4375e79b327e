import Mpss.Cosm.StateFlow

namespace Mpss.Proofs.CardState
open Cosm.StateFlow Option

/-- What holds of a card in every run: a flow without a command is over, it ends in no temporal
state, and a card that is ready or about to be booted has no device registered. -/
structure Sound (s : Cdev) : Prop where
  idle : s.id = .none → s.flow = .idle ∧ temporal s.state = false
  current : ∀ cmd pc,s.flow = .running cmd pc → s.id = cmd
  called : ∀ c,s.call = some c → c.cmd ≠ .none
  free : ∀ c,s.call = some c → c.pc = .allowed ∨ c.pc = .cancel →
    (cosmCommands c.cmd).abortCurrent = false → s.id = .none
  chosen : ∀ c,s.call = some c → c.pc = .cancel → c.cmd = .boot → s.state = .ready
  ready : s.state = .ready → s.vop = false ∧ s.scif = false
  pending : s.flow = .pending → s.id = .boot → s.state = .ready
  booting : s.flow = .running .boot .invoke → s.state = .booting ∧ s.vop = false ∧ s.scif = false
  leaving : ∀ cmd st msg,s.flow = .running cmd (.exit st msg) →
    temporal st = false ∧ (st = .ready → s.vop = false ∧ s.scif = false)
  left : ∀ cmd,s.flow = .running cmd .clear → temporal s.state = false
  log : ∀ devices ∈ s.bootLog,devices = (false,false)

theorem probed_sound : Sound probed := by constructor <;> simp [probed,temporal]

inductive Stepped (s : Cdev) : Act → Cdev → Prop
  | test (hc : s.call = some c) (ht : test s c = some t) : Stepped s .test t
  | cancel (hc : s.call = some c) (hp : c.pc = .cancel) :
    Stepped s .cancel { s with
      id := c.cmd,abort := false,receivedOnline := false,flow := .pending,call :=
        some { c with pc := .wait } }
  | leave : Stepped s .leave { s with call := none }
  | start (hf : s.flow = .pending) : Stepped s .start t
  | invoke (hf : s.flow = .running cmd .invoke) : Stepped s (.invoke answers) t
  | complete (hf : s.flow = .running cmd .complete) : Stepped s (.complete detected) t
  | check (hf : s.flow = .running cmd .check) : Stepped s (.check timedOut) t
  | exit (hf : s.flow = .running cmd (.exit st msg)) : Stepped s .exit t
  | clear (hf : s.flow = .running cmd .clear) : Stepped s .clear t
  | online (hw : s.work = .got m) (hc : m.change = true) (ho : m.state = .online) :
    Stepped s .handle { s with receivedOnline := true,work := .poll,heard := m.boot :: s.heard }
  | enter (hc : cmd ≠ .none) (ht : enter { s with work := work } cmd w = some t) : Stepped s a t
  | moved (queue : List CardMsg) (waiting : Option (List CardMsg)) :
    Stepped s a { s with work := work,queue := queue,waiting := waiting }

theorem boot_allowed (h : isCommandAllowed st .boot = true) : st = .ready := by
  cases st <;> first | rfl | exact absurd h (by decide)

/-- What `invoke` can change. Only the boot calls `hw_ops->boot`; the other commands register
nothing. -/
def Invoked (s : Cdev) (cmd : MicCmd) (t : Cdev) : Prop := ∃ v f n l,
  t = { s with vop := v,scif := f,boots := n,bootLog := l } ∧
  (cmd ≠ .boot → n = s.boots ∧ l = s.bootLog ∧ (s.vop = false ∧ s.scif = false →
  v = false ∧ f = false)) ∧
  (l = s.bootLog ∨ l = (s.vop,s.scif) :: s.bootLog)

theorem invoke_spec (s : Cdev) (a : Answers) (cmd : MicCmd) : Invoked s cmd (invoke s a cmd).1 := by
  have hk : Invoked s cmd s := ⟨s.vop,s.scif,s.boots,s.bootLog,rfl,fun _ => ⟨rfl,rfl,id⟩,.inl rfl⟩
  have hs : Invoked s cmd (cosmStop s) :=
    ⟨false,false,s.boots,s.bootLog,rfl,fun _ => ⟨rfl,rfl,fun _ => ⟨rfl,rfl⟩⟩,.inl rfl⟩
  cases cmd with
  | boot =>
    simp only [invoke]
    split
    · cases a.boot <;> exact ⟨_,_,_,_,rfl,fun hne => absurd rfl hne,.inr rfl⟩
    · exact hk
  | reset =>
    simp only [invoke,cosmReset]
    split
    · exact hk
    split
    · exact hk
    · exact hs
  | shutdown =>
    simp only [invoke,cosmShutdown]
    split
    · exact hs
    split
    all_goals exact hk
  | resetForce | resetForceWarm | shutdownForce => exact hs
  | _ => exact hk

/-- A command that ends in the ready state has unregistered the devices. -/
def Completed (s : Cdev) (cmd : MicCmd) (t : Cdev) (done : Bool) : Prop := ∃ v f e,
  t = { s with vop := v,scif := f,executeOnReady := e } ∧
  (s.vop = false ∧ s.scif = false → v = false ∧ f = false) ∧
  (done = true → (cosmCommands cmd).targetState = .ready → v = false ∧ f = false)

theorem complete_spec (s : Cdev) (detected : MicState) (cmd : MicCmd) :
    Completed s cmd (complete s detected cmd).1 (complete s detected cmd).2.1 := by
  have hk : Completed s cmd s false := ⟨s.vop,s.scif,s.executeOnReady,rfl,id,fun hno => by cases hno⟩
  cases cmd with
  | none => exact hk
  | bootFirmware | boot | handlePanic | handleHang =>
    exact ⟨s.vop,s.scif,s.executeOnReady,rfl,id,fun _ hno => by cases hno⟩
  | _ =>
    simp only [complete]
    split
    · exact ⟨false,false,_,rfl,fun _ => ⟨rfl,rfl⟩,fun _ _ => ⟨rfl,rfl⟩⟩
    · exact hk

section
variable (h : Sound s)
include h

theorem Sound.frame (queue : List CardMsg) (waiting : Option (List CardMsg))
    (received abort : Bool) (heard : List Nat) :
    Sound { s with work := work,queue := queue,waiting := waiting,receivedOnline := received,abort := abort,
                   heard := heard } :=
  { h with }

theorem Sound.left_call : Sound { s with call := none } :=
  { h with
    called := fun _ hc => by cases hc
    free := fun _ hc => by cases hc
    chosen := fun _ hc => by cases hc }

theorem Sound.at_call (w : Bool) (hcm : cmd ≠ .none)
    (hf : pc = .allowed ∨ pc = .cancel → (cosmCommands cmd).abortCurrent = false → s.id = .none)
    (hch : pc = .cancel → cmd = .boot → s.state = .ready) : Sound { s with call := some ⟨cmd,w,pc⟩ } :=
  { h with
    called := fun _ hc => some.inj hc ▸ hcm
    free := fun _ hc => some.inj hc ▸ hf
    chosen := fun _ hc => some.inj hc ▸ hch }

theorem Sound.enter (hc : cmd ≠ .none) (he : enter s cmd w = some t) : Sound t := by
  unfold Cosm.StateFlow.enter at he
  split at he
  · cases he
  split_ifs at he with ha
  · cases he
    apply (h.frame s.queue s.waiting s.receivedOnline true s.heard).at_call w hc
    · intro _ hno
      rw [ha] at hno
      cases hno
    · rintro - rfl
      cases ha
  · cases he
    apply h.at_call w hc
    · rintro (hpc | hpc) <;> cases hpc
    · intro hpc
      cases hpc

/-- A command that passes the last two tests finds no other, and is allowed in the state that is
left. -/
theorem Sound.test (hc : s.call = some c) (ht : test s c = some t) : Sound t := by
  have hn : ∀ (refused : Bool) (pc : CallPc),(refused = false →
      Sound { s with call := some { c with pc := pc } }) →
      Sound { s with call := if refused then none else some { c with pc := pc } } := by
    intro refused pc hgo
    cases refused with
    | true => exact h.left_call
    | false => exact hgo rfl
  unfold Cosm.StateFlow.test at ht
  split at ht
  · cases ht
    exact hn _ _ fun _ => h.at_call _ (h.called c hc) (fun hpc => by simp at hpc)
      (fun hpc => by simp at hpc)
  · cases ht
    exact hn _ _ fun _ => h.at_call _ (h.called c hc) (fun hpc => by simp at hpc)
      (fun hpc => by simp at hpc)
  · cases ht
    apply hn
    intro hnn
    apply h.at_call _ (h.called c hc)
    · intro _ _
      simpa using hnn
    · intro hpc
      cases hpc
  · rename_i hpc
    cases ht
    apply hn
    intro ha
    apply h.at_call _ (h.called c hc)
    · exact fun _ => h.free c hc (.inl hpc)
    · intro _ hb
      simp only [hb,Bool.not_eq_false'] at ha
      exact boot_allowed ha
  all_goals cases ht

theorem Sound.cancel (hc : s.call = some c) (hpc : c.pc = .cancel) :
    Sound { s with
      id := c.cmd,abort := false,receivedOnline := false,flow := .pending,call :=
        some { c with pc := .wait } } where
  idle := fun hid => absurd hid (h.called c hc)
  current := fun _ _ hf => by cases hf
  called := fun _ hc' => some.inj hc' ▸ h.called c hc
  free := fun _ hc' => by
    cases hc'
    rintro (hp' | hp') <;> cases hp'
  chosen := fun _ hc' hp' => by
    cases hc'
    cases hp'
  ready := h.ready
  pending := fun _ => h.chosen c hc hpc
  booting := fun hf => by cases hf
  leaving := fun _ _ _ hf => by cases hf
  left := fun _ hf => by cases hf
  log := h.log

theorem Sound.busy (hf : s.flow ≠ .idle) : s.id ≠ .none := fun hid => hf (h.idle hid).1

/-- No boot waits for a flow to end: it would have been refused. -/
theorem Sound.not_chosen (hid : s.id ≠ .none) (hc : s.call = some c) (hpc : c.pc = .cancel) :
    c.cmd ≠ .boot := by
  intro hb
  apply hid
  apply h.free c hc (.inr hpc)
  rw [hb]
  rfl

theorem Sound.goes (hid : s.id ≠ .none) (hp : flow ≠ .pending)
    (hc : ∀ cmd pc,flow = .running cmd pc → s.id = cmd) (hi : flow ≠ .running .boot .invoke)
    (hl : ∀ cmd st msg,flow = .running cmd (.exit st msg) →
      temporal st = false ∧ (st = .ready → s.vop = false ∧ s.scif = false))
    (hlf : ∀ cmd,flow = .running cmd .clear → temporal s.state = false) :
      Sound { s with flow := flow } :=
  { h with
    idle := fun hn => absurd hn hid
    current := hc
    pending := fun hf => absurd hf hp
    booting := fun hf => absurd hf hi
    leaving := hl
    left := hlf }

theorem Sound.start (hf : s.flow = .pending) (ht : step s .start = some t) : Sound t := by
  have hid : s.id ≠ .none := h.busy (by simp [hf])
  have hr : (cosmCommands s.id).temporalState ≠ .ready := by cases s.id <;> decide
  unfold step at ht
  simp only [hf] at ht
  cases ht
  split_ifs with htm
  · refine { h with
      idle := fun hn => absurd hn hid
      current := fun cmd pc hrn => by
        cases hrn
        rfl
      chosen := fun c hc hpc hb => absurd hb (h.not_chosen hid hc hpc)
      ready := fun hst => absurd hst hr
      pending := fun hrn => by cases hrn
      booting := fun hrn => ?_
      leaving := fun _ _ _ hrn => by cases hrn
      left := fun _ hrn => by cases hrn }
    have hb : s.id = .boot := by injection hrn
    refine ⟨?_,h.ready (h.pending hf hb)⟩
    simp [cosmSwitchToState,hb,cosmCommands]
  · apply h.goes hid
    · intro hrn
      cases hrn
    · intro cmd pc hrn
      cases hrn
      rfl
    · intro hrn
      have hb : s.id = .boot := by injection hrn
      rw [hb] at htm
      exact absurd (by decide) htm
    · intro _ _ _ hrn
      cases hrn
    · intro _ hrn
      cases hrn

theorem Sound.moves (hf : s.flow = .running cmd pc) (pc' : FlowPc) (v f : Bool) (n : Nat)
    (l : List (Bool × Bool)) (e : MicCmd) (hpc : pc' ≠ .invoke) (hc : pc' ≠ .clear)
    (hr : s.state = .ready → v = false ∧ f = false)
    (hl : ∀ st msg,pc' = .exit st msg → temporal st = false ∧ (st = .ready → v = false ∧ f = false))
    (hlg : ∀ devices ∈ l,devices = (false,false)) :
    Sound { s with
      executeOnReady := e,vop := v,scif := f,flow := .running cmd pc',boots := n,bootLog := l } where
  idle := fun hn => absurd hn (h.busy (by simp [hf]))
  current := fun _ _ hrn => by
    cases hrn
    exact h.current _ _ hf
  called := h.called
  free := h.free
  chosen := h.chosen
  ready := hr
  pending := fun hrn => by cases hrn
  booting := fun hrn => by
    cases hrn
    exact absurd rfl hpc
  leaving := fun _ st msg hrn => by
    cases hrn
    exact hl st msg rfl
  left := fun _ hrn => by
    cases hrn
    exact absurd rfl hc
  log := hlg

theorem Sound.invoke (hf : s.flow = .running cmd .invoke) (ht : step s (.invoke a) = some t) :
    Sound t := by
  obtain ⟨v,f,n,l,heq,ho,hl⟩ := invoke_spec s a cmd
  unfold step at ht
  simp only [hf,heq] at ht
  cases ht
  apply h.moves hf
  · split <;> simp
  · split <;> simp
  · intro hr
    by_cases hb : cmd = .boot
    · subst hb
      rw [(h.booting hf).1] at hr
      cases hr
    · exact (ho hb).2.2 (h.ready hr)
  · intro st msg hpc
    split at hpc
    · cases hpc
    · cases hpc
      exact ⟨rfl,fun hst => by cases hst⟩
  · intro devices hm
    by_cases hb : cmd = .boot
    · subst hb
      obtain ⟨_,hv,hs⟩ := h.booting hf
      rcases hl with rfl | rfl
      · exact h.log devices hm
      · rcases List.mem_cons.mp hm with hn | hol
        · rw [hn,hv,hs]
        · exact h.log devices hol
    · exact h.log devices ((ho hb).2.1 ▸ hm)

theorem Sound.complete (hf : s.flow = .running cmd .complete)
    (ht : step s (.complete detected) = some t) : Sound t := by
  obtain ⟨v,f,e,heq,hk,hd⟩ := complete_spec s detected cmd
  unfold step at ht
  simp only [hf,heq] at ht
  cases ht
  apply h.moves hf
  · split <;> simp
  · split <;> simp
  · exact fun hr => hk (h.ready hr)
  · intro st msg hpc
    split at hpc
    · rename_i hok
      cases hpc
      exact ⟨by cases cmd <;> decide,hd hok⟩
    · cases hpc
  · exact h.log

theorem Sound.check (hf : s.flow = .running cmd .check) (ht : step s (.check timedOut) = some t) :
    Sound t := by
  unfold step at ht
  simp only [hf] at ht
  split at ht
  · cases ht
    apply h.moves hf
    · simp
    · simp
    · exact h.ready
    · intro st msg hpc
      cases hpc
      exact ⟨rfl,fun hst => by cases hst⟩
    · exact h.log
  split at ht
  · cases ht
    apply h.goes (h.busy (by simp [hf])) <;> simp
  cases ht
  apply h.moves hf
  · simp
  · simp
  · exact h.ready
  · simp
  · exact h.log

theorem Sound.exit (hf : s.flow = .running cmd (.exit st msg)) (ht : step s .exit = some t) :
    Sound t := by
  have hid : s.id ≠ .none := h.busy (by simp [hf])
  obtain ⟨htm,hr⟩ := h.leaving _ _ _ hf
  unfold step at ht
  simp only [hf] at ht
  cases ht
  exact { h with
    idle := fun hn => absurd hn hid
    current := fun _ _ hrn => by
      cases hrn
      exact h.current _ _ hf
    chosen := fun c hc hpc hb => absurd hb (h.not_chosen hid hc hpc)
    ready := hr
    pending := fun hrn => by cases hrn
    booting := fun hrn => by cases hrn
    leaving := fun _ _ _ hrn => by cases hrn
    left := fun _ _ => htm }

theorem Sound.clear (hf : s.flow = .running cmd .clear) (ht : step s .clear = some t) : Sound t := by
  unfold step at ht
  simp only [hf] at ht
  cases ht
  exact { h with
    idle := fun _ => ⟨rfl,h.left _ hf⟩
    current := fun _ _ hr => by cases hr
    free := fun _ _ _ _ => rfl
    pending := fun hr => by cases hr
    booting := fun hr => by cases hr
    leaving := fun _ _ _ hr => by cases hr
    left := fun _ hr => by cases hr }

end

theorem Stepped.continues : Stepped s a (continueWork s last) := by
  unfold continueWork
  split
  all_goals exact .moved _ s.waiting

theorem step_cases (ht : step s a = some t) : Stepped s a t := by
  cases a <;> simp only [step] at ht
  case user cmd =>
    obtain ⟨hs,ht⟩ := ite_none_left_eq_some.mp ht
    refine .enter ?_ ht
    rintro rfl
    exact hs rfl
  case test =>
    obtain ⟨c,hc,ht⟩ := bind_eq_some_iff.mp ht
    exact .test hc ht
  case cancel =>
    obtain ⟨c,hc,ht⟩ := bind_eq_some_iff.mp ht
    obtain ⟨hp,ht⟩ := ite_none_right_eq_some.mp ht
    unfold cancel at ht
    split at ht <;> cases ht
    all_goals exact .cancel hc hp
  case leave =>
    obtain ⟨c,_,ht⟩ := bind_eq_some_iff.mp ht
    split at ht <;> cases ht
    exact .leave
  case handle =>
    split at ht
    · split at ht
      · unfold statusHandler at ht
        split at ht
        · cases ht
          exact .online ‹_› ‹_› ‹_›
        · exact .enter (by decide) ht
        · exact .enter (by decide) ht
        · exact .enter (by decide) ht
        · cases ht
          exact .continues
      · cases ht
        exact .continues
    · cases ht
  case hang =>
    split at ht
    · exact .enter (by decide) ht
    · cases ht
  case send toWaiting change state =>
    split at ht
    · obtain ⟨q,_,rfl⟩ := map_eq_some_iff.mp ht
      exact .moved s.queue _
    split at ht <;> cases ht
    exact .moved _ s.waiting
  case connect | accept | recv =>
    split at ht <;> cases ht
    exact .moved _ _
  case resume =>
    split at ht
    · split at ht <;> cases ht
      exact .continues
    · cases ht
  case close =>
    split at ht <;> cases ht
    exact .continues
  all_goals
    split at ht
    · constructor
      assumption
    · cases ht

theorem Sound.step (h : Sound s) (ht : step s a = some t) : Sound t := by
  cases step_cases ht with
  | test hc ht => exact h.test hc ht
  | cancel hc hp => exact h.cancel hc hp
  | leave => exact h.left_call
  | start hf => exact h.start hf ht
  | invoke hf => exact h.invoke hf ht
  | complete hf => exact h.complete hf ht
  | check hf => exact h.check hf ht
  | exit hf => exact h.exit hf ht
  | clear hf => exact h.clear hf ht
  | enter hc ht => exact (h.frame _ _ _ _ _).enter hc ht
  | online | moved => exact h.frame _ _ _ _ _

end Mpss.Proofs.CardState
