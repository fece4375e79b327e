import Mpss.Library.Counting
import Mpss.Library.Runs
import Mpss.Scif.Registration

namespace Mpss.Proofs.HandleConsumed
open Library.Counting Library.Runs Scif.Registration List Option

/-- Every call has returned and no message is in flight. -/
def Quiet (s : Exchange) : Prop := s.inFlight = [] ∧ ∀ r ∈ s.regs,∃ err,r.pc = .returned err

/-- A window is inserted or destroyed at most once, exactly once when everything has come to rest;
no message meets it after its destruction, and a call that succeeded has it inserted. -/
structure Consumed (s : Exchange) : Prop where
  once : ∀ w ∈ s.windows,w.inserted + w.destroyed ≤ 1
  settled : Quiet s → ∀ w ∈ s.windows,w.inserted + w.destroyed = 1
  fresh : ∀ w ∈ s.windows,w.stale = 0
  success : ∀ r ∈ s.regs,r.pc = .returned 0 → ∃ w,s.windows[r.vaddr]? = some w ∧ w.inserted = 1

/-- No call whose `scif_map_window` failed has been granted its remote window. -/
def Allowed (s : Exchange) : Act → Prop
  | .prepared i => ∀ r,s.regs[i]? = some r → r.mapErr = true → r.alloc ≠ .completed
  | _ => True

def msgHandle : Msg → Option Nat
  | .allocGnt _ vaddr => some vaddr
  | .register vaddr _ => some vaddr
  | .freeVirt vaddr => some vaddr
  | _ => none

def holding : Pc → Bool
  | .registering | .returned _ => false
  | _ => true

def regHandle (r : Reg) : Option Nat :=
  if r.alloc = .completed ∧ holding r.pc = true then some r.vaddr else none

def consumed (ws : List RemoteWindow) (vaddr : Nat) : Nat :=
  match ws[vaddr]? with
  | some w => w.inserted + w.destroyed
  | none => 0

def places (s : Exchange) (vaddr : Nat) : Nat :=
  holders msgHandle s.inFlight vaddr + holders regHandle s.regs vaddr + consumed s.windows vaddr

/-- The call whose allocation a message is about. -/
def allocOf : Msg → Option Nat
  | .allocReq i => some i
  | .allocGnt i _ => some i
  | .allocRej i => some i
  | _ => none

/-- The call whose registration a message is about. -/
def registerOf : Msg → Option Nat
  | .register _ i => some i
  | .registerAck i => some i
  | .registerNack i => some i
  | _ => none

def awaitsAlloc (r : Reg) : Nat := if r.alloc = .inProgress then 1 else 0

def awaitsRegister (r : Reg) : Nat := if r.pc = .registering ∧ r.regState = .inProgress then 1 else 0

def due (f : Reg → Nat) (regs : List Reg) (i : Nat) : Nat :=
  match regs[i]? with
  | some r => f r
  | none => 0

structure Sound (r : Reg) : Prop where
  asked : r.alloc ≠ .idle
  granted : r.pc = .prepared ∨ r.pc = .registering → r.alloc = .completed
  sent : r.pc = .registering → r.regState ≠ .idle
  unpinned : r.pc = .incomplete → r.pinErr ≠ 0
  answered : ∀ err,r.pc = .returned err → r.alloc ≠ .inProgress

/-- The peer has inserted the window of the call. -/
def Inserted (s : Exchange) (r : Reg) : Prop := ∃ w,s.windows[r.vaddr]? = some w ∧ 0 < w.inserted

/-- The peer's answer, or the result, says that the window was inserted. -/
def Succeeded (r : Reg) : Prop := r.pc = .registering ∧ r.regState = .completed ∨ r.pc = .returned 0

structure Inv (s : Exchange) : Prop where
  place : ∀ vaddr,places s vaddr = if vaddr < s.windows.length then 1 else 0
  alloc : ∀ i,holders allocOf s.inFlight i = due awaitsAlloc s.regs i
  register : ∀ i,holders registerOf s.inFlight i = due awaitsRegister s.regs i
  sound : ∀ r ∈ s.regs,Sound r
  success : ∀ r ∈ s.regs,Succeeded r → Inserted s r
  registers : ∀ vaddr i,.register vaddr i ∈ s.inFlight →
    ∃ r,s.regs[i]? = some r ∧ r.vaddr = vaddr ∧ r.alloc = .completed
  acks : ∀ i,.registerAck i ∈ s.inFlight → ∃ r,s.regs[i]? = some r ∧
    r.alloc = .completed ∧ Inserted s r
  fresh : ∀ w ∈ s.windows,w.stale = 0

theorem consumed_of (h : ws[v]? = some w) :
    consumed ws v = w.inserted + w.destroyed := by rw [consumed,h]

theorem Inv.window (h : Inv s) (hw : s.windows[v]? = some w) :
    holders msgHandle s.inFlight v + holders regHandle s.regs v + (w.inserted + w.destroyed) = 1 := by
  have hp := h.place v
  rw [places,consumed_of hw,if_pos (List.getElem?_eq_some_iff.mp hw).1] at hp
  exact hp

theorem holders_zero {held : α → Option κ} [DecidableEq κ] {l : List α}
    (h : ∀ a ∈ l,held a = none) : holders held l k = 0 := by
  refine countP_eq_zero.mpr ?_
  intro a ha
  simp [h a ha]

theorem Inv.consumed (h : Inv s) : Consumed s := by
  refine ⟨?_,?_,h.fresh,?_⟩
  · intro w hw
    obtain ⟨v,hv⟩ := mem_iff_getElem?.mp hw
    have := h.window hv
    omega
  · rintro ⟨hm,hr⟩ w hw
    obtain ⟨v,hv⟩ := mem_iff_getElem?.mp hw
    have hwn := h.window hv
    have hrg : holders regHandle s.regs v = 0 := by
      apply holders_zero
      intro r hrm
      obtain ⟨err,he⟩ := hr r hrm
      simp [regHandle,he,holding]
    rw [hm,hrg] at hwn
    simpa [holders] using hwn
  · intro r hr he
    obtain ⟨w,hw,hp⟩ := h.success r hr (.inr he)
    have := h.window hw
    exact ⟨w,hw,by omega⟩

theorem Inv.init : Inv Exchange.init where
  place := fun _ => rfl
  alloc := fun _ => rfl
  register := fun _ => rfl
  sound := fun _ h => nomatch h
  success := fun _ h => nomatch h
  registers := fun _ _ h => nomatch h
  acks := fun _ h => nomatch h
  fresh := fun _ h => nomatch h

theorem due_eq : due f regs i = (regs[i]?).elim 0 f := by cases h : regs[i]? <;> simp [due,h]

theorem consumed_eq : consumed ws v = (ws[v]?).elim 0 (fun w => w.inserted + w.destroyed) := by
  cases h : ws[v]? <;> simp [consumed,h]

theorem lookup_set {l : List α} (f : α → Nat) (ha : l[i]? = some a) (b : α) (j : Nat) :
    ((l.set i b)[j]?).elim 0 f + (if i = j then f a else 0) = (l[j]?).elim 0 f + if i =
    j then f b else 0 := by
  by_cases hj : i = j
  · subst hj
    rw [List.getElem?_set_self (List.getElem?_eq_some_iff.mp ha).1,ha]
    simp only [if_true]
    exact add_comm _ _
  · rw [getElem?_set_ne hj,if_neg hj,if_neg hj]

theorem Inv.peer (h : Inv s) (fl : List Msg)
    (hp : ∀ v,holders msgHandle fl v + HandleConsumed.consumed ws v +
        (if v < s.windows.length then 1 else 0) =
      holders msgHandle s.inFlight v + HandleConsumed.consumed s.windows v +
        if v < ws.length then 1 else 0)
    (ha : ∀ j,holders allocOf fl j = holders allocOf s.inFlight j)
    (hre : ∀ j,holders registerOf fl j = holders registerOf s.inFlight j)
    (hin : ∀ (v : Nat) (w : RemoteWindow),s.windows[v]? = some w → ∃ w',ws[v]? = some w' ∧
      w.inserted ≤ w'.inserted)
    (hf : ∀ w ∈ ws,w.stale = 0)
    (hrg : ∀ v i,.register v i ∈ fl → .register v i ∈ s.inFlight)
    (hac : ∀ i,.registerAck i ∈ fl → .registerAck i ∈ s.inFlight ∨ ∃ r w,s.regs[i]? = some r ∧
      r.alloc = .completed ∧ ws[r.vaddr]? = some w ∧ 0 < w.inserted) :
    Inv { s with windows := ws,inFlight := fl } := by
  have hk : ∀ r,Inserted s r → Inserted { s with windows := ws,inFlight := fl } r := by
    rintro r ⟨w,hw,hps⟩
    obtain ⟨w',hw',hle⟩ := hin r.vaddr w hw
    exact ⟨w',hw',hps.trans_le hle⟩
  refine ⟨?_,fun i => (ha i).trans (h.alloc i),fun i => (hre i).trans (h.register i),h.sound,
    fun r hr hs => hk r (h.success r hr hs),fun v i hm => h.registers v i (hrg v i hm),?_,hf⟩
  · intro v
    have h1 := h.place v
    have h2 := hp v
    unfold places at h1 ⊢
    simp only
    omega
  · intro i hm
    rcases hac i hm with hm | ⟨r,w,hr,hc,hw,hps⟩
    · obtain ⟨r,hr,hc,hi⟩ := h.acks i hm
      exact ⟨r,hr,hc,hk r hi⟩
    · exact ⟨r,hr,hc,w,hw,hps⟩

theorem at_some (h : Exchange.at s i pc f = some t) :
    ∃ r,s.regs[i]? = some r ∧ r.pc = pc ∧ f r = some t := by
  unfold Exchange.at at h
  split at h
  · rename_i r hr
    obtain ⟨hp,hf⟩ := ite_none_right_eq_some.mp h
    exact ⟨r,hr,hp,hf⟩
  · cases h

theorem holding_idle (hp : holding r.pc = true) : awaitsRegister r = 0 ∧ ¬ Succeeded r := by
  constructor
  · refine if_neg ?_
    rintro ⟨hg,_⟩
    rw [hg] at hp
    cases hp
  · rintro (⟨hg,_⟩ | hg) <;> rw [hg] at hp <;> cases hp

theorem Sound.returned (hs : Sound r) (hw : r.alloc ≠ .inProgress) (err : Int) :
    Sound { r with pc := .returned err } :=
  ⟨hs.asked,fun hc => by simp at hc,nofun,nofun,fun _ _ => hw⟩

theorem returned_idle {r : Reg} (err : Int) :
    regHandle { r with pc := .returned err } = none ∧ awaitsRegister
    { r with pc := .returned err } = 0 :=
  ⟨if_neg (fun hc => nomatch hc.2),if_neg (fun hc => nomatch hc.1)⟩

theorem failed_not_succeeded {r : Reg} (he : err ≠ 0) :
    ¬ Succeeded { r with pc := .returned err } := by
  rintro (⟨hc,_⟩ | hc)
  · cases hc
  · exact he (Pc.returned.inj hc)

theorem Inv.soundAt {i : Nat} (h : Inv s) (hr : s.regs[i]? = some r) :
    Sound r := h.sound r (mem_of_getElem? hr)

section
variable {i : Nat} (h : Inv s) (hr : s.regs[i]? = some r)
include h hr

/-- A call goes on: the window it gives up is in the messages that it sends, and it waits for as
many answers as are under way. -/
theorem Inv.reg (r' : Reg) (fl : List Msg) (hs : Sound r')
    (hk : r.alloc = .completed → r'.alloc = .completed ∧ r'.vaddr = r.vaddr)
    (hsc : Succeeded r' → Inserted s r')
    (hp : ∀ v,holders msgHandle fl v + (if regHandle r' = some v then 1 else 0) =
      holders msgHandle s.inFlight v + if regHandle r = some v then 1 else 0)
    (ha : ∀ j,holders allocOf fl j + (if i = j then awaitsAlloc r else 0) =
      holders allocOf s.inFlight j + if i = j then awaitsAlloc r' else 0)
    (hrg : ∀ j,holders registerOf fl j + (if i = j then awaitsRegister r else 0) =
      holders registerOf s.inFlight j + if i = j then awaitsRegister r' else 0)
    (hn : ∀ m ∈ fl,m ∈ s.inFlight ∨ (m = .register r'.vaddr i ∧ r'.alloc = .completed) ∨
      ∃ v,m = .freeVirt v) :
    Inv { s with regs := s.regs.set i r',inFlight := fl } := by
  have hi := (List.getElem?_eq_some_iff.mp hr).1
  have hf : ∀ (j : Nat) (q : Reg),s.regs[j]? = some q → q.alloc = .completed →
      ∃ q',(s.regs.set i r')[j]? = some q' ∧ q'.vaddr = q.vaddr ∧ q'.alloc = .completed := by
    intro j q hq hc
    by_cases hj : j = i
    · subst hj
      have hqr : q = r := some.inj (hq.symm.trans hr)
      subst hqr
      exact ⟨r',getElem?_set_self hi,(hk hc).2,(hk hc).1⟩
    · exact ⟨q,(getElem?_set_ne (fun he => hj he.symm)).trans hq,rfl,hc⟩
  refine ⟨?_,?_,?_,?_,?_,?_,?_,h.fresh⟩
  · intro v
    have h1 := h.place v
    have h2 := holders_set regHandle hr r' v
    have h3 := hp v
    unfold places at h1 ⊢
    simp only
    omega
  · intro j
    have h1 := h.alloc j
    have h2 := lookup_set awaitsAlloc hr r' j
    have h3 := ha j
    simp only [due_eq] at h1 ⊢
    omega
  · intro j
    have h1 := h.register j
    have h2 := lookup_set awaitsRegister hr r' j
    have h3 := hrg j
    simp only [due_eq] at h1 ⊢
    omega
  · intro q hq
    rcases mem_or_eq_of_mem_set hq with hq | rfl
    · exact h.sound q hq
    · exact hs
  · intro q hq hqs
    rcases mem_or_eq_of_mem_set hq with hq | rfl
    · exact h.success q hq hqs
    · exact hsc hqs
  · intro v j hm
    rcases hn _ hm with hm | ⟨hm,hc⟩ | ⟨w,hm⟩
    · obtain ⟨q,hq,hv,hc⟩ := h.registers v j hm
      obtain ⟨q',hq',hv',hc'⟩ := hf j q hq hc
      exact ⟨q',hq',hv'.trans hv,hc'⟩
    · cases hm
      exact ⟨r',getElem?_set_self hi,rfl,hc⟩
    · cases hm
  · intro j hm
    rcases hn _ hm with hm | ⟨hm,_⟩ | ⟨w,hm⟩
    · obtain ⟨q,hq,hc,w,hw,hps⟩ := h.acks j hm
      obtain ⟨q',hq',hv',hc'⟩ := hf j q hq hc
      exact ⟨q',hq',hc',w,hv' ▸ hw,hps⟩
    all_goals cases hm

theorem Inv.hand (m : Msg) (hs : Sound r')
    (hk : r'.alloc = r.alloc ∧ r'.vaddr = r.vaddr) (hsc : Succeeded r' → Inserted s r')
    (hm : regHandle r = some r.vaddr ∧ regHandle r' = none)
    (hnw : m = .register r'.vaddr i ∧ r'.alloc = .completed ∧ awaitsRegister r' = 1 ∨
      m = .freeVirt r.vaddr ∧ awaitsRegister r' = 0)
    (hi : awaitsRegister r = 0) : Inv ((s.setReg i r').send m) := by
  have ha : awaitsAlloc r' = awaitsAlloc r := by simp [awaitsAlloc,hk.1]
  have hms : msgHandle m = some r.vaddr ∧ allocOf m = none := by
    rcases hnw with ⟨rfl,_⟩ | ⟨rfl,_⟩
    · exact ⟨congrArg some hk.2,rfl⟩
    · exact ⟨rfl,rfl⟩
  refine h.reg hr r' (m :: s.inFlight) hs (fun hc => ⟨hk.1.trans hc,hk.2⟩) hsc ?_ ?_ ?_ ?_
  · intro v
    rw [holders_cons,hm.1,hm.2,hms.1]
    simp
  · intro j
    rw [holders_cons,hms.2,ha]
    simp
  · intro j
    rw [holders_cons,hi]
    rcases hnw with ⟨rfl,_,hw⟩ | ⟨rfl,hw⟩
    all_goals simp [registerOf,hw]
  · intro n hn
    rcases mem_cons.mp hn with rfl | hn
    · rcases hnw with ⟨rfl,hc,_⟩ | ⟨rfl,_⟩
      · exact .inr (.inl ⟨rfl,hc⟩)
      · exact .inr (.inr ⟨_,rfl⟩)
    · exact .inl hn

section
variable (hs : Sound r') (hk : r'.alloc = r.alloc ∧ r'.vaddr = r.vaddr)
include hs hk

theorem Inv.move (hsc : Succeeded r' → Inserted s r')
    (hh : regHandle r' = regHandle r) (hg : awaitsRegister r' = awaitsRegister r) :
    Inv (s.setReg i r') := by
  have ha : awaitsAlloc r' = awaitsAlloc r := by simp [awaitsAlloc,hk.1]
  exact h.reg hr r' s.inFlight hs (fun hc => ⟨hk.1.trans hc,hk.2⟩) hsc (fun v => by rw [hh])
    (fun j => by rw [ha]) (fun j => by rw [hg]) (fun m hm => Or.inl hm)

theorem Inv.onward (hp : holding r.pc = true) (hp' : holding r'.pc = true) : Inv (s.setReg i r') := by
  refine h.move hr hs hk (fun hsu => absurd hsu (holding_idle hp').2) ?_ ?_
  · simp [regHandle,hk.1,hk.2,hp,hp']
  · rw [(holding_idle hp').1,(holding_idle hp).1]

end

theorem Inv.pin (hp : r.pc = .requested) (err : Int) :
    Inv (s.setReg i { r with pc := if err = 0 then .pinned else .incomplete,pinErr := err }) := by
  have hs := h.soundAt hr
  have ho : holding r.pc = true := hp ▸ rfl
  split_ifs with he
  · exact h.onward hr ⟨hs.asked,fun hc => by simp at hc,nofun,nofun,nofun⟩ ⟨rfl,rfl⟩ ho rfl
  · exact h.onward hr ⟨hs.asked,fun hc => by simp at hc,nofun,fun _ => he,nofun⟩ ⟨rfl,rfl⟩ ho rfl

theorem Inv.map (hp : r.pc = .pinned) (ok : Bool) :
    Inv (s.setReg i { r with pc := .waiting,mapErr := !ok }) := by
  have hs := h.soundAt hr
  have ho : holding r.pc = true := hp ▸ rfl
  exact h.onward hr ⟨hs.asked,fun hc => by simp at hc,nofun,nofun,nofun⟩ ⟨rfl,rfl⟩ ho rfl

theorem Inv.refused (hf : r.alloc ≠ .completed)
    (hw : r.alloc ≠ .inProgress) (hp : holding r.pc = true) (he : err ≠ 0) :
    Inv (s.setReg i { r with pc := .returned err }) := by
  have hs := h.soundAt hr
  have hn : regHandle r = none := if_neg (fun hc => hf hc.1)
  refine h.move hr (hs.returned hw err) ⟨rfl,rfl⟩ (fun hsu => absurd hsu
    (failed_not_succeeded he)) ?_ ?_
  · rw [(returned_idle err).1,hn]
  · rw [(returned_idle err).2,(holding_idle hp).1]

theorem Inv.give_back (hc : r.alloc = .completed)
    (hp : holding r.pc = true) (he : err ≠ 0) :
    Inv ((s.setReg i { r with pc := .returned err }).send (.freeVirt r.vaddr)) := by
  have hs := h.soundAt hr
  have hw : r.alloc ≠ .inProgress := by simp [hc]
  exact h.hand hr _ (hs.returned hw err) ⟨rfl,rfl⟩ (fun hsu => absurd hsu (failed_not_succeeded he))
    ⟨if_pos ⟨hc,hp⟩,(returned_idle err).1⟩ (.inr ⟨rfl,(returned_idle err).2⟩) (holding_idle hp).1

theorem Inv.destroyIncomplete (hp : r.pc = .incomplete)
    (hw : r.alloc ≠ .inProgress) : Inv (scifDestroyIncompleteWindow s i r) := by
  have hs := h.soundAt hr
  have ho : holding r.pc = true := hp ▸ rfl
  unfold scifDestroyIncompleteWindow
  split_ifs with hc
  · exact h.give_back hr hc ho (hs.unpinned hp)
  · exact h.refused hr hc hw ho (hs.unpinned hp)

theorem Inv.prepared (hp : r.pc = .waiting) (hw : r.alloc ≠ .inProgress)
    (ha : r.mapErr = true → r.alloc ≠ .completed) : Inv (scifPrepRemoteWindow s i r) := by
  have hs := h.soundAt hr
  have ho : holding r.pc = true := hp ▸ rfl
  unfold scifPrepRemoteWindow
  split
  · rename_i hf
    refine h.refused hr ?_ hw ho (by decide)
    rw [hf]
    decide
  rename_i hf
  have hc : r.alloc = .completed := by
    cases hal : r.alloc with
    | idle => exact absurd hal hs.asked
    | inProgress => exact absurd hal hw
    | completed => rfl
    | failed => exact absurd hal hf
  split
  · rename_i hm
    exact absurd hc (ha hm)
  · exact h.onward hr ⟨hs.asked,fun _ => hc,nofun,nofun,nofun⟩ ⟨rfl,rfl⟩ ho rfl

theorem Inv.sendRegister (hp : r.pc = .prepared) : Inv (scifSendScifRegister s i r) := by
  have hs := h.soundAt hr
  have hc := hs.granted (.inl hp)
  have ho : holding r.pc = true := hp ▸ rfl
  unfold scifSendScifRegister
  split
  · refine h.hand hr _ ⟨hs.asked,fun _ => hc,fun _ => nofun,nofun,nofun⟩ ⟨rfl,rfl⟩ ?_
      ⟨if_pos ⟨hc,ho⟩,if_neg (fun hn => nomatch hn.2)⟩ (.inl ⟨rfl,hc,rfl⟩) (holding_idle ho).1
    rintro (⟨_,hn⟩ | hn) <;> cases hn
  · exact h.give_back hr hc ho (by decide)

theorem Inv.registered (hp : r.pc = .registering) (hw : r.regState ≠ .inProgress) :
    Inv (scifRegisterDone s i r) := by
  have hs := h.soundAt hr
  have hc := hs.granted (.inr hp)
  have hwt : r.alloc ≠ .inProgress := by simp [hc]
  refine h.move hr (hs.returned hwt _) ⟨rfl,rfl⟩ ?_ ?_ ?_
  · rintro (⟨hn,_⟩ | hn)
    · cases hn
    have hz := Pc.returned.inj hn
    have ha : r.regState = .completed := by
      cases hst : r.regState with
      | idle => exact absurd hst (hs.sent hp)
      | inProgress => exact absurd hst hw
      | completed => rfl
      | failed =>
        rw [hst] at hz
        cases hz
    exact h.success r (mem_of_getElem? hr) (.inl ⟨hp,ha⟩)
  · rw [(returned_idle _).1]
    refine (if_neg ?_).symm
    rintro ⟨_,hn⟩
    rw [hp] at hn
    cases hn
  · exact (if_neg (fun hn => hw hn.2)).symm

end

theorem lookup_append {f : α → Nat} :
    ((l ++ [a])[j]?).elim 0 f = (l[j]?).elim 0 f + if l.length = j then f a else 0 := by
  by_cases hj : l.length = j
  · subst hj
    simp
  · by_cases hlt : j < l.length
    · rw [getElem?_append_left hlt,if_neg hj,add_zero]
    · rw [getElem?_eq_none (by simp; omega),getElem?_eq_none (by omega),if_neg hj,add_zero]

theorem Inv.call (h : Inv s) (hp : pc = .requested ∨ pc = .pinned) :
    Inv (scifSendAllocRequest s pc) := by
  let r : Reg := ⟨pc,0,.inProgress,0,false,.idle⟩
  have hs : Sound r := by
    rcases hp with rfl | rfl
    all_goals exact ⟨nofun,fun hc => by simp [r] at hc,nofun,nofun,nofun⟩
  have hnw : ¬ Succeeded r ∧ awaitsRegister r = 0 := by
    rcases hp with rfl | rfl <;> exact ⟨(holding_idle rfl).2,rfl⟩
  refine ⟨?_,?_,?_,?_,?_,?_,?_,h.fresh⟩
  · intro v
    have hpl := h.place v
    have hn : ∀ q ∈ [r],regHandle q = none := by
      intro q hq
      rw [mem_singleton.mp hq]
      exact if_neg (fun hc => nomatch hc.1)
    have hr : holders regHandle (s.regs ++ [r]) v = holders regHandle s.regs v := by
      rw [holders_append,holders_zero hn,add_zero]
    change _ + holders regHandle (s.regs ++ [r]) v + _ = _
    rw [hr]
    exact hpl
  · intro j
    have ha := h.alloc j
    rw [due_eq] at ha
    simp [scifSendAllocRequest,Exchange.send,holders_cons,due_eq,lookup_append,ha,allocOf,awaitsAlloc]
  · intro j
    have hg := h.register j
    rw [due_eq] at hg
    simp only [scifSendAllocRequest,Exchange.send,holders_cons,due_eq,lookup_append,hg]
    rw [hnw.2]
    simp [registerOf]
  · exact forall_mem_append.mpr ⟨h.sound,forall_mem_singleton.mpr hs⟩
  · intro q hq hqs
    rcases mem_append.mp hq with hq | hq
    · exact h.success q hq hqs
    · rw [mem_singleton.mp hq] at hqs
      exact absurd hqs hnw.1
  · intro v j hm
    rcases mem_cons.mp hm with hm | hm
    · cases hm
    · obtain ⟨q,hq,hv⟩ := h.registers v j hm
      exact ⟨q,List.getElem?_append_left (List.getElem?_eq_some_iff.mp hq).1 ▸ hq,hv⟩
  · intro j hm
    rcases mem_cons.mp hm with hm | hm
    · cases hm
    · obtain ⟨q,hq,hv⟩ := h.acks j hm
      exact ⟨q,List.getElem?_append_left (List.getElem?_eq_some_iff.mp hq).1 ▸ hq,hv⟩

theorem modify_at {l : List α} (h : l[i]? = some a) (f : α → α) : l.modify i f = l.set i (f a) := by
  rw [modify_eq_set_getElem?,h]
  rfl

theorem due_one (h : 0 < due f regs i) : ∃ r,regs[i]? = some r ∧ 0 < f r := by
  unfold due at h
  split at h
  · rename_i r hr
    exact ⟨r,hr,h⟩
  · cases h

theorem erase_none {held : Msg → Option Nat} (hm : m ∈ fl) (hh : held m = none)
    (k : Nat) : holders held (fl.erase m) k = holders held fl k := by
  have := holders_erase held hm k
  simpa [hh] using this

theorem erase_awaited {held : Msg → Option Nat} (hm : m ∈ fl) (hh : held m = some i)
    (h1 : a = 1) (h0 : b = 0) (j : Nat) : holders held (fl.erase m) j + (if i = j then a else 0) =
      holders held fl j + if i = j then b else 0 := by
  rw [h1,h0,← holders_erase held hm j,hh]
  simp

section
variable (h : Inv s) (hm : m ∈ s.inFlight)
include h hm

theorem Inv.awaits_alloc (ho : allocOf m = some i) :
    ∃ r,s.regs[i]? = some r ∧ r.alloc = .inProgress ∧ holding r.pc = true := by
  obtain ⟨r,hr,hw⟩ := due_one (h.alloc i ▸ holders_pos hm ho)
  have hal : r.alloc = .inProgress := by
    by_contra hne
    rw [awaitsAlloc,if_neg hne] at hw
    cases hw
  have hs := h.soundAt hr
  refine ⟨r,hr,hal,?_⟩
  cases hp : r.pc with
  | registering =>
    have := hs.granted (.inr hp)
    rw [hal] at this
    cases this
  | returned err => exact absurd hal (hs.answered err hp)
  | _ => rfl

theorem Inv.awaits_register (ho : registerOf m = some i) :
    ∃ r,s.regs[i]? = some r ∧ r.pc = .registering ∧ r.regState = .inProgress := by
  obtain ⟨r,hr,hw⟩ := due_one (h.register i ▸ holders_pos hm ho)
  by_contra hne
  have hno : ¬ (r.pc = .registering ∧ r.regState = .inProgress) := fun hc => hne ⟨r,hr,hc⟩
  rw [awaitsRegister,if_neg hno] at hw
  cases hw

theorem Inv.alloc_answer (hr : s.regs[i]? = some r)
    (hal : r.alloc = .inProgress) (hol : holding r.pc = true)
    (ho : allocOf m = some i ∧ registerOf m = none)
    (hst : st = .completed ∧ msgHandle m = some v ∨ st = .failed ∧ msgHandle m = none) :
    Inv { s with regs := s.regs.set i { r with alloc := st,vaddr := v }
                 inFlight := s.inFlight.erase m } := by
  have hs := h.soundAt hr
  have hs' : st ≠ .idle ∧ st ≠ .inProgress := by rcases hst with ⟨rfl,_⟩ | ⟨rfl,_⟩ <;>
    exact ⟨nofun,nofun⟩
  have he : ¬ (r.pc = .prepared ∨ r.pc = .registering) := by
    intro hp
    have := hs.granted hp
    rw [hal] at this
    cases this
  refine h.reg hr _ _ ⟨hs'.1,fun hp => absurd hp he,hs.sent,hs.unpinned,fun _ _ => hs'.2⟩
    ?_ (fun hsu => absurd hsu (holding_idle hol).2) ?_ (erase_awaited hm ho.1 (if_pos hal)
    (if_neg hs'.2))
    (fun j => congrArg (· + _) (erase_none hm ho.2 j)) (fun n hn => Or.inl (mem_of_mem_erase hn))
  · intro hc
    rw [hal] at hc
    cases hc
  · intro u
    have ht := holders_erase msgHandle hm u
    have hnn : regHandle r = none := if_neg (fun hc => by rw [hal] at hc; cases hc.1)
    have hnw : regHandle { r with alloc := st,vaddr := v } = msgHandle m := by
      rcases hst with ⟨rfl,hh⟩ | ⟨rfl,hh⟩
      · rw [hh]
        exact if_pos ⟨rfl,hol⟩
      · rw [hh]
        exact if_neg (fun hc => nomatch hc.1)
    rw [hnn,hnw]
    simpa using ht

theorem Inv.answer (hr : s.regs[i]? = some r) (hp : r.pc = .registering)
    (hw : r.regState = .inProgress) (ho : msgHandle m = none ∧ allocOf m = none ∧
    registerOf m = some i)
    (hst : st = .completed ∧ Inserted s r ∨ st = .failed) :
    Inv { s with regs := s.regs.set i { r with regState := st },inFlight := s.inFlight.erase m } := by
  have hs := h.soundAt hr
  have hs' : st ≠ .idle ∧ st ≠ .inProgress := by rcases hst with ⟨rfl,_⟩ | rfl <;> exact ⟨nofun,nofun⟩
  refine h.reg hr _ _ { hs with sent := fun _ => hs'.1 }
    (fun hc => ⟨hc,rfl⟩) ?_ (fun u => congrArg (· + _) (erase_none hm ho.1 u))
    (fun j => congrArg (· + _) (erase_none hm ho.2.1 j))
    (erase_awaited hm ho.2.2 (if_pos ⟨hp,hw⟩) (if_neg (fun hc => hs'.2 hc.2)))
    (fun n hn => .inl (mem_of_mem_erase hn))
  · rintro (⟨_,hc⟩ | hc)
    · rcases hst with ⟨_,hi⟩ | hf
      · exact hi
      · rw [hf] at hc
        cases hc
    · rw [hp] at hc
      cases hc

theorem Inv.untouched (hh : msgHandle m = some v) : s.windows[v]? = some ⟨0,0,0⟩ := by
  have hps := holders_pos hm hh
  have hp := h.place v
  unfold places at hp
  by_cases hlt : v < s.windows.length
  · obtain ⟨⟨inserted,destroyed,stale⟩,hw⟩ : ∃ w,s.windows[v]? = some w :=
      ⟨_,getElem?_eq_getElem hlt⟩
    have hwn := h.window hw
    have hst := h.fresh _ (mem_of_getElem? hw)
    simp only at hwn hst
    have hi : inserted = 0 := by omega
    have hd : destroyed = 0 := by omega
    rw [hw,hi,hd,hst]
  · rw [if_neg hlt] at hp
    omega

theorem Inv.consume (hh : msgHandle m = some v) (hw : w.inserted + w.destroyed = 1 ∧ w.stale = 0)
    (reply : List Msg)
    (hrp : ∀ n ∈ reply,msgHandle n = none ∧ allocOf n = none ∧ (∀ u i,n ≠ .register u i) ∧
      ∀ i,n = .registerAck i → m = .register v i ∧ 0 < w.inserted)
    (ha : allocOf m = none)
    (hrg : ∀ j,holders registerOf reply j = if registerOf m = some j then 1 else 0) :
    Inv { s with windows := s.windows.set v w,inFlight := reply ++ s.inFlight.erase m } := by
  have ho := h.untouched hm hh
  have hlt := (List.getElem?_eq_some_iff.mp ho).1
  have hs : (s.windows.set v w)[v]? = some w := getElem?_set_self hlt
  have hmm : ∀ n,n ∈ reply ++ s.inFlight.erase m → n ∈ reply ∨ n ∈ s.inFlight := by
    intro n hn
    exact (mem_append.mp hn).imp_right mem_of_mem_erase
  refine h.peer _ ?_ ?_ ?_ ?_ ?_ ?_ ?_
  · intro u
    have h1 := holders_erase msgHandle hm u
    have h2 := lookup_set (fun w => w.inserted + w.destroyed) ho w u
    have h3 : holders msgHandle reply u = 0 := holders_zero (fun n hn => (hrp n hn).1)
    rw [hh] at h1
    rw [holders_append,h3,length_set,consumed_eq,consumed_eq]
    simp only [some.injEq,hw.1] at h1 h2
    by_cases he : v = u
    · rw [if_pos he] at h2
      omega
    · rw [if_neg he] at h2
      omega
  · intro j
    have h3 : holders allocOf reply j = 0 := holders_zero (fun n hn => (hrp n hn).2.1)
    rw [holders_append,h3,zero_add,erase_none hm ha]
  · intro j
    have h1 := holders_erase registerOf hm j
    rw [holders_append,hrg]
    omega
  · intro u x hx
    by_cases hu : v = u
    · subst hu
      have hx0 : x = ⟨0,0,0⟩ := some.inj (hx.symm.trans ho)
      refine ⟨w,hs,?_⟩
      rw [hx0]
      exact Nat.zero_le _
    · exact ⟨x,(getElem?_set_ne hu).trans hx,le_rfl⟩
  · intro x hx
    rcases mem_or_eq_of_mem_set hx with hx | rfl
    · exact h.fresh x hx
    · exact hw.2
  · intro u i hn
    rcases hmm _ hn with hn | hn
    · exact absurd rfl ((hrp _ hn).2.2.1 u i)
    · exact hn
  · intro i hn
    rcases hmm _ hn with hn | hn
    · obtain ⟨rfl,hp⟩ := (hrp _ hn).2.2.2 i rfl
      obtain ⟨r,hr,hv,hc⟩ := h.registers v i hm
      exact .inr ⟨r,w,hr,hc,hv ▸ hs,hp⟩
    · exact .inl hn

end

theorem Inv.allocReq (h : Inv s) (hm : .allocReq i ∈ s.inFlight) (mem : Bool) :
    Inv (scifAllocReq { s with inFlight := s.inFlight.erase (.allocReq i) } i mem) := by
  have hc : ∀ (held : Msg → Option Nat) (n : Msg) (k : Nat),held n = held (.allocReq i) →
      holders held (n :: s.inFlight.erase (.allocReq i)) k = holders held s.inFlight k := by
    intro held n k he
    rw [holders_cons,he]
    exact holders_erase held hm k
  have hmm : ∀ {n m : Msg},m ∈ n :: s.inFlight.erase (.allocReq i) → m ≠ n → m ∈ s.inFlight :=
    fun hn hne => mem_of_mem_erase ((mem_cons.mp hn).resolve_left hne)
  cases mem with
  | false =>
    refine h.peer (.allocRej i :: s.inFlight.erase (.allocReq i)) ?_ (fun j => hc _ _ j rfl)
      (fun j => hc _ _ j rfl) (fun v w hw => ⟨w,hw,le_rfl⟩) h.fresh (fun v j hn => hmm hn (by simp))
      (fun j hn => .inl (hmm hn (by simp)))
    intro v
    rw [hc msgHandle (.allocRej i) v rfl]
  | true =>
    refine h.peer
      (.allocGnt i s.windows.length :: s.inFlight.erase (.allocReq i)) ?_ (fun j => hc _ _ j rfl)
      (fun j => hc _ _ j rfl) ?_ ?_ (fun v j hn => hmm hn (by simp))
      (fun j hn => .inl (hmm hn (by simp)))
    · intro v
      have h1 := holders_erase msgHandle hm v
      have h2 : HandleConsumed.consumed (s.windows ++ [⟨0,0,0⟩]) v = HandleConsumed.consumed
        s.windows v := by
        simp [consumed_eq,lookup_append]
      rw [h2,holders_cons,length_append]
      simp only [msgHandle,some.injEq,length_singleton] at h1 ⊢
      by_cases hv : s.windows.length = v
      · simp [hv] at h1 ⊢
        omega
      rw [if_neg hv]
      by_cases hlt : v < s.windows.length
      · rw [if_pos hlt,if_pos (by omega)]
        simpa using h1
      · rw [if_neg hlt,if_neg (by omega)]
        simpa using h1
    · intro v w hw
      exact ⟨w,(List.getElem?_append_left (List.getElem?_eq_some_iff.mp hw).1).trans hw,le_rfl⟩
    · intro w hw
      rcases mem_append.mp hw with hw | hw
      · exact h.fresh w hw
      · rw [mem_singleton.mp hw]

theorem Inv.recvReg (h : Inv s) (hm : .register v i ∈ s.inFlight) :
    Inv (scifRecvReg { s with inFlight := s.inFlight.erase (.register v i) } v i) := by
  have hw := h.untouched hm rfl
  unfold scifRecvReg
  simp only [modify_at hw]
  split
  · refine h.consume hm rfl ⟨rfl,rfl⟩ [.registerAck i] ?_ rfl (by simp [holders,registerOf])
    refine forall_mem_singleton.mpr ⟨rfl,rfl,by simp,fun j hj => ?_⟩
    cases hj
    exact ⟨rfl,Nat.zero_lt_one⟩
  · refine h.consume hm rfl ⟨rfl,rfl⟩ [.registerNack i] ?_ rfl (by simp [holders,registerOf])
    exact forall_mem_singleton.mpr ⟨rfl,rfl,by simp,by simp⟩

theorem Inv.deliver (h : Inv s) (hm : m ∈ s.inFlight) (mem : Bool) :
    Inv (handle { s with inFlight := s.inFlight.erase m } mem m) := by
  cases m with
  | allocReq i => exact h.allocReq hm mem
  | allocGnt i v =>
    obtain ⟨r,hr,hal,ho⟩ := h.awaits_alloc hm rfl
    simp only [handle,modify_at hr]
    exact h.alloc_answer hm hr hal ho ⟨rfl,rfl⟩ (.inl ⟨rfl,rfl⟩)
  | allocRej i =>
    obtain ⟨r,hr,hal,ho⟩ := h.awaits_alloc hm rfl
    simp only [handle,modify_at hr]
    exact h.alloc_answer hm hr hal ho ⟨rfl,rfl⟩ (.inr ⟨rfl,rfl⟩)
  | register v i => exact h.recvReg hm
  | registerAck i =>
    obtain ⟨r,hr,hp,hw⟩ := h.awaits_register hm rfl
    obtain ⟨q,hq,_,hi⟩ := h.acks i hm
    have hqr : q = r := some.inj (hq.symm.trans hr)
    simp only [handle,modify_at hr]
    exact h.answer hm hr hp hw ⟨rfl,rfl,rfl⟩ (.inl ⟨rfl,hqr ▸ hi⟩)
  | registerNack i =>
    obtain ⟨r,hr,hp,hw⟩ := h.awaits_register hm rfl
    simp only [handle,modify_at hr]
    exact h.answer hm hr hp hw ⟨rfl,rfl,rfl⟩ (.inr rfl)
  | freeVirt v =>
    have hw := h.untouched hm rfl
    simp only [handle,scifFreeVirt,modify_at hw]
    exact h.consume hm rfl ⟨rfl,rfl⟩ [] (fun n hn => nomatch hn) rfl (fun j => rfl)

theorem Inv.step (h : Inv s) (ha : Allowed s a) (hr : s.step a = some t) : Inv t := by
  cases a with
  | register =>
    cases hr
    exact h.call (.inl rfl)
  | registerPinned =>
    cases hr
    exact h.call (.inr rfl)
  | pin i err =>
    obtain ⟨r,hi,hp,hr⟩ := at_some hr
    cases hr
    exact h.pin hi hp err
  | map i ok =>
    obtain ⟨r,hi,hp,hr⟩ := at_some hr
    cases hr
    exact h.map hi hp ok
  | destroyIncomplete i =>
    obtain ⟨r,hi,hp,hr⟩ := at_some hr
    exact of_unless hr (fun hw => h.destroyIncomplete hi hp hw)
  | prepared i =>
    obtain ⟨r,hi,hp,hr⟩ := at_some hr
    exact of_unless hr (fun hw => h.prepared hi hp hw (ha r hi))
  | sendRegister i =>
    obtain ⟨r,hi,hp,hr⟩ := at_some hr
    cases hr
    exact h.sendRegister hi hp
  | registered i =>
    obtain ⟨r,hi,hp,hr⟩ := at_some hr
    exact of_unless hr (fun hw => h.registered hi hp hw)
  | deliver m mem => exact of_guard hr (fun hm => h.deliver hm mem)
  | disconnect | peerDisconnect => exact of_guard hr (fun _ => { h with })

def rank (r : Reg) : Nat :=
  match r.pc with
  | .requested => 8
  | .pinned => 7
  | .waiting => 6
  | .prepared => 4
  | .incomplete => 2
  | .registering => 1
  | .returned _ => 0

def weight : Msg → Nat
  | .allocReq _ | .register _ _ => 2
  | _ => 1

def work (s : Exchange) : Nat := total rank s.regs + total weight s.inFlight + s.connected.toNat +
    s.peerConnected.toNat

theorem total_cons : total f (a :: l) = f a + total f l := rfl

theorem work_setReg (hi : s.regs[i]? = some r) (q : Reg) :
    work (s.setReg i q) + rank r = work s + rank q := by
  have := total_set rank hi q
  simp only [work,Exchange.setReg]
  omega

theorem work_send (s : Exchange) (m : Msg) : work (s.send m) = work s + weight m := by
  simp only [work,Exchange.send,total_cons]
  omega

theorem work_moved (hi : s.regs[i]? = some r) (hq : rank q < rank r) :
    work (s.setReg i q) < work s := by
  have := work_setReg hi q
  omega

theorem work_moved_send (hi : s.regs[i]? = some r) (hq : rank q + weight m < rank r) :
    work ((s.setReg i q).send m) < work s := by
  have := work_setReg hi q
  have := work_send (s.setReg i q) m
  omega

theorem work_modify (i : Nat) (hf : ∀ r,(f r).pc = r.pc) :
    work { s with regs := s.regs.modify i f } = work s := by
  have := total_modify (fun r => show rank (f r) = rank r by unfold rank; rw [hf r]) s.regs i
  unfold work
  rw [this]

theorem work_answer (ht : work t = work s) (hm : weight m = 1) : work (t.send m) < work s + 2 := by
  rw [work_send,ht,hm]
  exact Nat.lt_succ_self _

theorem work_modify_lt (i : Nat) (hf : ∀ r,(f r).pc = r.pc) :
    work { s with regs := s.regs.modify i f } < work s + 1 := by
  rw [work_modify i hf]
  exact Nat.lt_succ_self _

theorem handle_work : work (handle s mem m) < work s + weight m := by
  cases m with
  | allocReq i =>
    cases mem with
    | true | false => exact work_answer rfl rfl
  | allocGnt i v | allocRej i => exact work_modify_lt i (fun _ => rfl)
  | register v i =>
    simp only [handle,scifRecvReg]
    split
    all_goals exact work_answer rfl rfl
  | registerAck i | registerNack i => exact work_modify_lt i (fun _ => rfl)
  | freeVirt v => exact Nat.lt_succ_self _

theorem work_erase (hm : m ∈ s.inFlight) :
    work { s with inFlight := s.inFlight.erase m } + weight m = work s := by
  have := total_erase weight hm
  unfold work
  dsimp only
  omega

theorem rank_at (hp : r.pc = pc) : rank r = rank { r with pc := pc } := by
  unfold rank
  rw [hp]

def Less (s t : Exchange) : Prop := work t < work s

/-- Every step but a new call leaves less to do. -/
theorem step_work (ha : a.isCall = false) (hr : s.step a = some t) : Less s t := by
  cases a with
  | register | registerPinned => cases ha
  | pin i err =>
    obtain ⟨r,hi,hp,hr⟩ := at_some hr
    cases hr
    refine work_moved hi ?_
    rw [rank_at hp]
    by_cases he : err = 0
    all_goals simp [rank,he]
  | map i ok =>
    obtain ⟨r,hi,hp,hr⟩ := at_some hr
    cases hr
    refine work_moved hi ?_
    rw [rank_at hp]
    exact Nat.lt_succ_self 6
  | destroyIncomplete i =>
    obtain ⟨r,hi,hp,hr⟩ := at_some hr
    refine of_unless hr fun _ => ?_
    unfold scifDestroyIncompleteWindow
    split
    · refine work_moved_send hi ?_
      rw [rank_at hp]
      exact Nat.lt_succ_self 1
    · refine work_moved hi ?_
      rw [rank_at hp]
      exact Nat.zero_lt_two
  | prepared i =>
    obtain ⟨r,hi,hp,hr⟩ := at_some hr
    refine of_unless hr fun _ => ?_
    have hrn : rank r = 6 := rank_at hp
    unfold scifPrepRemoteWindow
    split
    · exact work_moved hi (hrn ▸ Nat.succ_pos 5)
    split
    · split
      · exact work_moved_send hi (hrn ▸ Nat.lt_succ_self 5)
      · exact work_moved hi (hrn ▸ Nat.succ_pos 5)
    · exact work_moved hi (hrn ▸ Nat.lt_add_of_pos_right Nat.zero_lt_two)
  | sendRegister i =>
    obtain ⟨r,hi,hp,hr⟩ := at_some hr
    cases hr
    have hrn : rank r = 4 := rank_at hp
    unfold scifSendScifRegister
    split
    · exact work_moved_send hi (hrn ▸ Nat.lt_succ_self 3)
    · exact work_moved_send hi (hrn ▸ Nat.lt_add_of_pos_right (Nat.succ_pos 2))
  | registered i =>
    obtain ⟨r,hi,hp,hr⟩ := at_some hr
    refine of_unless hr fun _ => ?_
    have hrn : rank r = 1 := rank_at hp
    exact work_moved hi (hrn ▸ Nat.zero_lt_one)
  | deliver m mem => exact of_guard hr fun hm => handle_work.trans_eq (work_erase hm)
  | disconnect | peerDisconnect =>
    refine of_guard hr fun hc => ?_
    simp only [Less,work,hc,Bool.toNat_true,Bool.toNat_false]
    omega

theorem at_of {s : Exchange} (hi : s.regs[i]? = some r) (hp : r.pc = pc) : s.at i pc f = f r := by
  rw [Exchange.at,hi]
  exact if_pos hp

/-- While something is left to do, some step other than a new call can be taken. -/
theorem Inv.progress (h : Inv s) (hq : ¬ Quiet s) : ∃ a t,a.isCall = false ∧ s.step a = some t := by
  by_cases hm : s.inFlight = []
  · obtain ⟨r,hr,hn⟩ : ∃ r ∈ s.regs,¬ ∃ err,r.pc = .returned err := by
      by_contra hall
      refine hq ⟨hm,?_⟩
      intro r hr
      by_contra hn
      exact hall ⟨r,hr,hn⟩
    obtain ⟨i,hi⟩ := mem_iff_getElem?.mp hr
    have ha : r.alloc ≠ .inProgress := by
      intro hp
      have := h.alloc i
      rw [hm,due,hi] at this
      simp [holders,awaitsAlloc,hp] at this
    cases hp : r.pc with
    | requested => exact ⟨.pin i 0,_,rfl,at_of hi hp⟩
    | pinned => exact ⟨.map i true,_,rfl,at_of hi hp⟩
    | incomplete => exact ⟨.destroyIncomplete i,_,rfl,(at_of hi hp).trans (if_neg ha)⟩
    | waiting => exact ⟨.prepared i,_,rfl,(at_of hi hp).trans (if_neg ha)⟩
    | prepared => exact ⟨.sendRegister i,_,rfl,at_of hi hp⟩
    | registering =>
      have hrg : r.regState ≠ .inProgress := by
        intro hs
        have := h.register i
        rw [hm,due,hi] at this
        simp [holders,awaitsRegister,hp,hs] at this
      exact ⟨.registered i,_,rfl,(at_of hi hp).trans (if_neg hrg)⟩
    | returned err => exact absurd ⟨err,hp⟩ hn
  · obtain ⟨m,l,hl⟩ := exists_cons_of_ne_nil hm
    exact ⟨.deliver m true,_,rfl,if_pos (hl ▸ mem_cons_self)⟩

/-- In allowed runs each remote window is consumed at most once, and the exchange comes to rest with
each consumed. -/
theorem handle_consumed_once (as : List Act) (s : Exchange)
    (ha : Along Exchange.step Allowed Exchange.init as)
    (hr : exec Exchange.step Exchange.init as = some s) :
    Consumed s ∧ (¬ Quiet s → ∃ a t,a.isCall = false ∧ s.step a = some t) ∧
      (∀ a t,a.isCall = false → s.step a = some t → work t < work s) := by
  have h : Inv s := exec_invariant (fun _ _ _ hi hok hs => Inv.step hi hok hs) Inv.init ha hr
  exact ⟨h.consumed,h.progress,fun _ _ hc hs => step_work hc hs⟩

def registerMapped : List Act :=
  [.registerPinned,.deliver (.allocReq 0) true,.map 0 true,.deliver (.allocGnt 0 0) true,.prepared 0,
    .sendRegister 0,.deliver (.register 0 0) true,.deliver (.registerAck 0) true,.registered 0]

theorem mapped_window_inserted :
    ∃ s,exec Exchange.step Exchange.init registerMapped = some s ∧ s.windows = [⟨1,0,0⟩] ∧
      Consumed s := by
  have ha : Along Exchange.step Allowed Exchange.init registerMapped := by
    iterate 4 refine Along.cons trivial rfl ?_
    refine Along.cons (fun r hr hm => ?_) rfl ?_
    · cases hr
      cases hm
    · iterate 4 refine Along.cons trivial rfl ?_
      trivial
  exact ⟨_,rfl,rfl,(handle_consumed_once registerMapped _ ha rfl).1⟩

/-- The window of a call whose `scif_map_window` failed is destroyed by SCIF_FREE_VIRT, then
inserted, and the call succeeds. -/
theorem unmapped_window_consumed_twice :
    ∃ s,exec Exchange.step Exchange.init
      [.registerPinned,.deliver (.allocReq 0) true,.map 0 false,.deliver (.allocGnt 0 0) true,
        .prepared 0,.sendRegister 0,.deliver (.freeVirt 0) true,.deliver (.register 0 0) true,
        .deliver (.registerAck 0) true,.registered 0] = some s ∧
      s.windows = [⟨1,1,1⟩] ∧ s.regs.map (·.pc) = [.returned 0] ∧ ¬ Consumed s := by
  refine ⟨_,rfl,rfl,rfl,fun h => ?_⟩
  have := h.once _ mem_cons_self
  revert this
  decide

end Mpss.Proofs.HandleConsumed
