import Mpss.Proofs.DmaSound

namespace Mpss.Proofs.CallbacksOnce

open Dma.Lib Library.Laps Library.Runs Proofs.DmaChannel List Function Option Bool
open DmaSound

theorem handlerLoop_spec (cbs : Nat → Option Nat) (hoe : o ≤ e) (hl : e < o + size) (hn : e - o ≤ n)
    (hs : ∀ k,o ≤ k → k < e → cbs (k % size) = owner k) :
    upTo owner o ++ (handlerLoop size (e % size) n (o % size) cbs).1 = upTo owner e ∧
      ∀ k,e ≤ k → k < o + size →
        (handlerLoop size (e % size) n (o % size) cbs).2 (k % size) = cbs (k % size) := by
  induction n generalizing o cbs with
  | zero =>
    obtain rfl : o = e := by omega
    exact ⟨by simp [handlerLoop],fun _ _ _ => rfl⟩
  | succ n ih =>
    simp only [handlerLoop]
    split_ifs with heq
    · obtain rfl : o = e := slot_inj le_rfl hoe (by omega) hl heq
      exact ⟨by simp,fun _ _ _ => rfl⟩
    have hlt : o < e := by
      rcases lt_or_ge o e with h | h
      · exact h
      · exact absurd (congrArg (· % size) (le_antisymm hoe h)) heq
    have hsl : ∀ k,o + 1 ≤ k → k < e → update cbs (o % size) none (k % size) = owner k := by
      intro k hk hke
      rw [update_other (t := o) le_rfl (by omega) (by omega) (by omega) (by omega)]
      exact hs k (by omega) hke
    obtain ⟨hc,hkp⟩ := ih _ hlt (by omega) (by omega) hsl
    rw [incrRbIndex_slot]
    refine ⟨?_,?_⟩
    · rw [hs o le_rfl hlt,← append_assoc,← upTo_succ]
      exact hc
    · intro k hk hko
      rw [hkp k hk (by omega)]
      exact update_other (t := o) le_rfl (by omega) (by omega) hko (by omega)

/-- A report without an interrupt is not the last of its entry. -/
def Raising (c : Nat) : List Desc → Prop :=
  Counted .intrRing (fun k d => ∀ data,d = .status data .intrRing false → (k + 1) / c = k / c)

theorem Raising.append_other (hl : Raising c l) (hd : ∀ d ∈ ds,reports .intrRing d = false) :
    Raising c (l ++ ds) := by
  refine Counted.append_all hl ?_
  rintro d hm k data rfl
  have := hd _ hm
  simp [reports] at this

theorem Raising.append_entry (hl : Raising (intrDescs cfg 0).length l)
    (hc : statuses .intrRing l = (intrDescs cfg 0).length * h) :
    Raising (intrDescs cfg 0).length (l ++ intrDescs cfg i) := by
  cases hm : cfg.mk1om with
  | true =>
    simp only [intrDescs,hm,if_true,length_cons,length_nil] at hl hc ⊢
    rw [append_cons]
    refine Counted.append (Counted.append hl ?_) ?_
    · intro data _
      omega
    · intro data hd
      cases hd
  | false =>
    simp only [intrDescs,hm,false_eq_true,if_false,length_cons,length_nil] at hl ⊢
    refine Counted.append hl ?_
    intro data hd
    cases hd

/-- Who waits for which entry of the interrupt ring: `owner` names the callback of an entry, and the
handler has to entry `o`. -/
structure Calls (cfg : Config) (start : Nat) (owner : Nat → Option Nat) (o h : Nat) (s : State) :
    Prop where
  sound : Sound cfg start s
  ring : Ringed (intrDescs cfg 0).length .intrRing s.chan.intrRing h s.chan.programmed s.chan.executed
  raising : Raising (intrDescs cfg 0).length s.chan.programmed
  old : s.chan.oldTail = o % s.chan.intrRing.size
  behind : o ≤ (statuses .intrRing s.chan.executed + (intrDescs cfg 0).length - 1) /
    (intrDescs cfg 0).length
  lap : h < o + s.chan.intrRing.size
  slots : ∀ k,o ≤ k → k < h → s.chan.compCbArray (k % s.chan.intrRing.size) = owner k
  order : upTo owner h = List.range s.submitted.length
  taken : s.invoked = upTo owner o
  stops : ∀ k i,k < h → owner k = some i → ∃ stop,s.submitted[i]? = some stop ∧
    stop ≤ s.chan.programmed.length ∧
    statuses .intrRing (s.chan.programmed.take (stop - 1)) < (intrDescs cfg 0).length * (k + 1)
  late : ∀ i ∈ s.invoked,∃ stop,s.submitted[i]? = some stop ∧ stop ≤ s.chan.executed.length
  handled : s.pending = false → statuses .intrRing s.chan.executed / (intrDescs cfg 0).length ≤ o

theorem served_whole (hc : 0 < c) (hm : x % c = 0) (hk : k < (x + c - 1) / c) : c * (k + 1) ≤ x := by
  obtain ⟨q,rfl⟩ := Nat.dvd_of_mod_eq_zero hm
  have hq : (c * q + c - 1) / c = q := by
    rw [Nat.add_sub_assoc hc,Nat.mul_add_div hc,Nat.div_eq_of_lt (Nat.sub_one_lt_of_lt hc),add_zero]
  rw [hq] at hk
  exact Nat.mul_le_mul_left c hk

theorem mod_intrDescs (hm : cfg.mk1om = true → x % 2 = 0) : x % (intrDescs cfg 0).length = 0 := by
  cases h : cfg.mk1om with
  | true => simpa [intrDescs,h] using hm h
  | false => simp [intrDescs,h,Nat.mod_one]

section
variable (hs : Calls cfg start owner o h s)
include hs

theorem Calls.ended (hk : k < h) (hi : owner k = some i)
    (hx : (intrDescs cfg 0).length * (k + 1) ≤ statuses .intrRing s.chan.executed) :
    ∃ stop,s.submitted[i]? = some stop ∧ stop ≤ s.chan.executed.length := by
  obtain ⟨stop,hst,-,hb⟩ := hs.stops k i hk hi
  refine ⟨stop,hst,?_⟩
  by_contra hlt
  have hle := statuses_take_le (r := .intrRing) s.chan.programmed
    (show s.chan.executed.length ≤ stop - 1 by omega)
  rw [← prefix_iff_eq_take.mp hs.sound.queue.order] at hle
  omega

theorem Calls.handle (hm : cfg.mk1om = true → statuses .intrRing s.chan.executed % 2 = 0)
    (ht : step cfg s .handle = some t) : ∃ e,Calls cfg start owner e h t := by
  have hsn := hs.sound.handle ht
  have hp := intrDescs_length_pos cfg 0
  have hmd := mod_intrDescs hm
  have hl := hs.ring.tracks.location
  have hsr := hs.ring.tracks.served
  have hlp := hs.lap
  have hb := hs.behind
  set e := (statuses .intrRing s.chan.executed + (intrDescs cfg 0).length - 1) / (intrDescs cfg 0).length
  have hf : statuses .intrRing s.chan.executed / (intrDescs cfg 0).length ≤
      e :=
    Nat.div_le_div_right (by omega)
  cases ht
  refine ⟨e,?_⟩
  have hsp := handlerLoop_spec (n := s.chan.intrRing.size) s.chan.compCbArray hb
    (by omega) (by omega) (fun k hk hke => hs.slots k hk (by omega))
  rw [← hl,← hs.old] at hsp
  obtain ⟨hc,hkp⟩ := hsp
  have hin : s.invoked ++ (micDmaLibInterruptHandler s.chan).1 = upTo owner
      e := by
    rw [hs.taken]
    exact hc
  refine ⟨hsn,Ringed.update hs.ring,hs.raising,hl,le_rfl,?_,?_,hs.order,hin,hs.stops,?_,fun _ => hf⟩
  · simp only [micDmaLibInterruptHandler,updateTail]
    omega
  · intro k hk hkh
    have := hkp k hk (by omega)
    simp only [micDmaLibInterruptHandler,updateTail]
    rw [this]
    exact hs.slots k (by omega) hkh
  · intro i hi
    simp only [hin] at hi
    obtain ⟨k,hk,ho⟩ := mem_upTo.mp hi
    exact hs.ended (hk.trans_le hsr) ho (served_whole hp hmd hk)

theorem Calls.poll (ht : step cfg s (.poll cookie) = some t) : Calls cfg start owner o h t := by
  have hsn := hs.sound.poll_step ht
  cases ht
  exact { hs with sound := hsn }

theorem Calls.quiet_report (hd : s.chan.executed ++ [d] <+: s.chan.programmed)
    (hq : (s.chan.perform d).1 = false) :
    statuses .intrRing (s.chan.executed ++ [d]) / (intrDescs cfg 0).length =
      statuses .intrRing s.chan.executed / (intrDescs cfg 0).length := by
  have hg : s.chan.programmed[s.chan.executed.length]? = some d := by
    obtain ⟨rest,hrs⟩ := hd
    rw [← hrs]
    simp
  have hb := prefix_iff_eq_take.mp hs.sound.queue.order
  have hr := hs.raising _ _ hg
  rw [← hb] at hr
  rw [statuses_append]
  cases d with
  | memcpy src dst size => rfl
  | status data dap intr =>
    cases dap with
    | intrRing =>
      cases hq
      exact hr data rfl
    | pollRing | phys addr => rfl

theorem Calls.hardware (ht : step cfg s .hardware = some t) : Calls cfg start owner o h t := by
  have hsn := hs.sound.hardware ht
  obtain ⟨r,hr,rfl⟩ := map_eq_some_iff.mp ht
  obtain ⟨hne,hrs,hch⟩ := execute_spec hr
  have hn := hs.sound.queue.next hs.sound.published hne
  have hrn := hs.ring.execute (intrDescs_length_pos cfg 0) hn
  have hsz := serve_size .intrRing s.chan.intrRing (s.chan.descRing s.chan.dtpr)
  simp only [hch] at hsn ⊢
  refine ⟨hsn,hrn,hs.raising,?_,?_,?_,?_,hs.order,hs.taken,hs.stops,?_,?_⟩
  · rw [hsz]
    exact hs.old
  · refine hs.behind.trans (Nat.div_le_div_right ?_)
    rw [statuses_append]
    omega
  · rw [hsz]
    exact hs.lap
  · rw [hsz]
    exact hs.slots
  · intro i hi
    obtain ⟨stop,hst,hle⟩ := hs.late i hi
    refine ⟨stop,hst,?_⟩
    simp only [length_append]
    omega
  · intro hp
    simp only [or_eq_false_iff] at hp
    rw [hs.quiet_report hn (hrs ▸ hp.2)]
    exact hs.handled hp.1

theorem Calls.stops_append (hk : k < h) (hi : owner k = some i) :
    ∃ stop,s.submitted[i]? = some stop ∧ stop ≤ (s.chan.programmed ++ ds).length ∧
      statuses .intrRing ((s.chan.programmed ++ ds).take (stop - 1)) <
        (intrDescs cfg 0).length * (k + 1) := by
  obtain ⟨stop,hst,hle,hb⟩ := hs.stops k i hk hi
  refine ⟨stop,hst,?_,?_⟩
  · simp only [length_append]
    omega
  · rwa [take_append_of_le_length (by omega)]

theorem Calls.quiet_call (hc : Called cfg start false wp cb s.chan ch copies)
    (ht : Sound cfg start { s with chan := ch,marks := ms,cookies := ks }) :
    Calls cfg start owner o h { s with chan := ch,marks := ms,cookies := ks } := by
  obtain ⟨hr,hsz⟩ := hc.intr_ringed hs.ring
  have hcb : ch.compCbArray = s.chan.compCbArray := hc.callbacks
  obtain ⟨front,hp,hf⟩ := hc.intr_last
  simp only [false_eq_true,if_false,append_nil] at hp
  refine ⟨ht,hr,?_,?_,?_,?_,?_,hs.order,hs.taken,?_,?_,?_⟩
  · rw [hp]
    exact hs.raising.append_other hf
  · rw [hc.oldTail,hsz]
    exact hs.old
  · rw [hc.executed]
    exact hs.behind
  · rw [hsz]
    exact hs.lap
  · rw [hsz,hcb]
    exact hs.slots
  · intro k i hk hi
    rw [hp]
    exact hs.stops_append hk hi
  · rw [hc.executed]
    exact hs.late
  · rw [hc.executed]
    exact hs.handled

end

theorem intrDescs_last : ∃ before,intrDescs cfg i = before ++ [.status i .intrRing true] := by
  unfold intrDescs
  split
  · exact ⟨[.status i .intrRing false],rfl⟩
  · exact ⟨[],rfl⟩

theorem statuses_unfinished :
    statuses .intrRing ((l ++ intrDescs cfg i).take ((l ++ intrDescs cfg i).length - 1)) <
      statuses .intrRing (l ++ intrDescs cfg i) := by
  obtain ⟨before,hb⟩ := intrDescs_last
  have ho : statuses .intrRing [.status i .intrRing true] = 1 := rfl
  rw [hb,← append_assoc,length_append,length_singleton,Nat.add_sub_cancel,
    take_left,statuses_append (l ++ before),ho]
  omega

/-- The callback of a call, and the places at which the calls returned. -/
def Submitted (s : State) (ch : DmaChannel) (cb : Option Nat) (sub : List Nat) : Prop :=
  cb = none ∧ sub = s.submitted ∨ cb = some s.submitted.length ∧ sub = s.submitted ++
    [ch.programmed.length]

theorem Submitted.kept {i : Nat} (hb : Submitted s ch cb sub) (hi : s.submitted[i]? = some stop) :
    sub[i]? = some stop := by
  rcases hb with ⟨-,rfl⟩ | ⟨-,rfl⟩
  · exact hi
  · rw [List.getElem?_append_left (List.getElem?_eq_some_iff.mp hi).1]
    exact hi

theorem Submitted.order (hb : Submitted s ch cb sub)
    (ho : upTo owner h = List.range s.submitted.length) :
    upTo (update owner h cb) (h + 1) = List.range sub.length := by
  rcases hb with ⟨rfl,rfl⟩ | ⟨rfl,rfl⟩
  · rw [upTo_succ_none (update_self h none owner),← ho]
    exact upTo_congr (fun q hq => update_of_ne (ne_of_lt hq) _ _)
  · rw [upTo_update,ho,length_append,length_singleton,range_succ]

/-- An entry is taken only while the handler is less than a lap behind. In a `CONFIG_MK1OM` build,
where an entry has two reports, the handler does not run between them. -/
def Allowed (cfg : Config) (s : State) : Act → Prop
  | .dma flags _ _ _ =>
    flags.intr = true → s.chan.oldTail ≠ incrRbIndex s.chan.intrRing.head s.chan.intrRing.size
  | .mark => s.chan.oldTail ≠ incrRbIndex s.chan.intrRing.head s.chan.intrRing.size
  | .handle => cfg.mk1om = true → statuses .intrRing s.chan.executed % 2 = 0
  | _ => True

section
variable (hs : Calls cfg start owner o h s)
include hs

theorem Calls.entry_call (hc : Called cfg start true wp cb s.chan ch copies)
    (hrm : h + 1 < o + s.chan.intrRing.size) (hb : Submitted s ch cb sub)
    (ht : Sound cfg start { s with chan := ch,submitted := sub,marks := ms,cookies := ks }) :
    Calls cfg start (update owner h cb) o (h + 1)
      { s with chan := ch,submitted := sub,marks := ms,cookies := ks } := by
  obtain ⟨hr,hsz⟩ := hc.intr_ringed hs.ring
  obtain ⟨front,hp,hf⟩ := hc.intr_last
  have hcb : ch.compCbArray = update s.chan.compCbArray s.chan.intrRing.head cb := hc.callbacks
  have hbf := (hs.ring.append_other hf).taken
  have hoh : o ≤ h := hs.behind.trans hs.ring.tracks.served
  simp only [if_true] at hp hr
  have htk := hr.taken
  refine ⟨ht,hr,?_,?_,?_,?_,?_,hb.order hs.order,?_,?_,?_,?_⟩
  · rw [hp]
    exact (hs.raising.append_other hf).append_entry hbf
  · rw [hc.oldTail,hsz]
    exact hs.old
  · rw [hc.executed]
    exact hs.behind
  · rw [hsz]
    exact hrm
  · intro k hk hkh
    rw [hsz,hcb,hs.ring.tracks.head]
    rcases lt_or_ge k h with hlt | hge
    · rw [update_other (t := o) hoh hk (by omega) (by omega) (ne_of_lt hlt),
        update_of_ne (ne_of_lt hlt)]
      exact hs.slots k hk hlt
    · obtain rfl : k = h := by omega
      rw [update_self,update_self]
  · rw [hs.taken]
    exact upTo_congr (fun q hq => (update_of_ne (by omega) _ _).symm)
  · intro k i hk hi
    rcases lt_or_ge k h with hlt | hge
    · rw [update_of_ne (ne_of_lt hlt)] at hi
      obtain ⟨stop,hst,hrs⟩ := hs.stops_append hlt hi
      refine ⟨stop,hb.kept hst,?_⟩
      rw [hp,append_assoc]
      exact hrs
    obtain rfl : k = h := by omega
    rw [update_self] at hi
    rcases hb with ⟨rfl,-⟩ | ⟨rfl,rfl⟩
    · cases hi
    · cases hi
      refine ⟨ch.programmed.length,by simp,le_rfl,?_⟩
      rw [← htk,hp]
      exact statuses_unfinished
  · rw [hc.executed]
    intro i hi
    obtain ⟨stop,hst,hle⟩ := hs.late i hi
    exact ⟨stop,hb.kept hst,hle⟩
  · rw [hc.executed]
    exact hs.handled

theorem Calls.room (ha : s.chan.oldTail ≠ incrRbIndex s.chan.intrRing.head s.chan.intrRing.size) :
    h + 1 < o + s.chan.intrRing.size := by
  have hl := hs.lap
  rw [hs.old,hs.ring.tracks.head,incrRbIndex_slot] at ha
  by_contra hge
  obtain heq : h + 1 = o + s.chan.intrRing.size := by omega
  rw [heq,Nat.add_mod_right] at ha
  exact ha rfl

theorem Calls.dma (ha : Allowed cfg s (.dma flags src dst len))
    (ht : step cfg s (.dma flags src dst len) = some t) : ∃ owner h,Calls cfg start owner o h t := by
  have hsn := hs.sound.dma ht
  obtain ⟨r,hr,rfl⟩ := map_eq_some_iff.mp ht
  obtain ⟨copies,hc,-⟩ := doDma_called hs.sound.queue hr
  obtain ⟨intr,polling⟩ := flags
  cases intr with
  | true => exact ⟨_,_,hs.entry_call hc (hs.room (ha rfl)) (.inr ⟨rfl,rfl⟩) hsn⟩
  | false => exact ⟨_,_,hs.quiet_call hc hsn⟩

end

def Inv (cfg : Config) (start : Nat) (s : State) : Prop := ∃ owner o h,Calls cfg start owner o h s

theorem step_calls (s : State) (a : Act) (t : State) (hs : Inv cfg start s) (ha : Allowed cfg s a)
    (ht : step cfg s a = some t) : Inv cfg start t := by
  obtain ⟨owner,o,h,hs⟩ := hs
  cases a with
  | dma flags src dst len =>
    obtain ⟨owner',h',hc⟩ := hs.dma ha ht
    exact ⟨owner',o,h',hc⟩
  | update addr value =>
    have hsn := hs.sound.update ht
    obtain ⟨ch,hr,rfl⟩ := map_eq_some_iff.mp ht
    exact ⟨owner,o,h,hs.quiet_call (doStatusUpdate_called hs.sound.queue hr) hsn⟩
  | mark =>
    have hsn := hs.sound.mark ht
    obtain ⟨r,hr,rfl⟩ := map_eq_some_iff.mp ht
    have hc := (programDmaMark_called hs.sound.queue hr).1
    exact ⟨_,_,_,hs.entry_call hc (hs.room ha) (.inl ⟨rfl,rfl⟩) hsn⟩
  | poll cookie => exact ⟨owner,o,h,hs.poll ht⟩
  | hardware => exact ⟨owner,o,h,hs.hardware ht⟩
  | handle =>
    obtain ⟨e,hc⟩ := hs.handle ha ht
    exact ⟨owner,e,h,hc⟩

theorem init_calls (hc : 0 < numComp) (hp : 0 < numPoll) (hs : start < numDesc) :
    Inv cfg start (init numComp numPoll numDesc start ring) := by
  have hsn := init_sound cfg hc hp hs ring
  have hrn : Ringed (intrDescs cfg 0).length .intrRing (initRing numComp) 0 [] [] := by
    obtain ⟨h,hr⟩ := hsn.intr
    have hz : h = 0 := by
      have := hr.taken
      have hps := intrDescs_length_pos cfg 0
      rcases Nat.mul_eq_zero.mp this.symm with h0 | h0
      · omega
      · exact h0
    exact hz ▸ hr
  refine ⟨fun _ => none,0,0,hsn,hrn,by simp [Raising,Counted,init],by simp [init],
    Nat.zero_le _,by simpa [init,initRing] using hc,by simp,by simp [init],by simp [init],
    by simp,by simp [init],by simp [init,statuses]⟩

/-- In allowed runs callbacks are called at most once, in order, after all descriptors of their
call, and none is left out. -/
theorem callbacks_once_in_order (cfg : Config) (numComp numPoll numDesc start : Nat)
    (hc : 0 < numComp) (hp : 0 < numPoll) (hs : start < numDesc) (ring : Nat → Desc) (as : List Act)
    (ha : Along (step cfg) (Allowed cfg) (init numComp numPoll numDesc start ring) as)
    (he : exec (step cfg) (init numComp numPoll numDesc start ring) as = some t) :
    t.invoked.Pairwise (· < ·) ∧
      (∀ i ∈ t.invoked,∃ stop,t.submitted[i]? = some stop ∧ stop ≤ t.chan.executed.length) ∧
      (t.chan.executed = t.chan.programmed → t.pending = false →
        t.invoked = List.range t.submitted.length) := by
  obtain ⟨owner,o,h,hcl⟩ := exec_invariant step_calls (init_calls hc hp hs) ha he
  have hoh : o ≤ h := hcl.behind.trans hcl.ring.tracks.served
  refine ⟨?_,hcl.late,?_⟩
  · rw [hcl.taken]
    have hr : (upTo owner h).Pairwise (· < ·) := by
      rw [hcl.order]
      exact pairwise_lt_range
    exact hr.sublist (upTo_mono owner hoh).sublist
  · intro hal hq
    have hd := hcl.handled hq
    rw [hal,hcl.ring.taken,Nat.mul_div_cancel_left _ (intrDescs_length_pos cfg 0)] at hd
    obtain rfl : o = h := le_antisymm hoh hd
    rw [hcl.taken,hcl.order]

def copyOnce : Act := .dma ⟨true,false⟩ 0 4096 64

def roundTrip : List Act := [copyOnce,.hardware,.hardware,.handle]

instance : ∀ a,Decidable (Allowed cfg s a)
  | .dma .. | .handle => inferInstanceAs (Decidable (_ → _))
  | .mark => inferInstanceAs (Decidable (_ ≠ _))
  | .update .. | .poll _ | .hardware => .isTrue trivial

theorem callbacks_once_in_order_twice :
    ∃ t,exec (step smallConfig) (init 3 3 8 0 (fun _ => .memcpy 0 0 0)) (roundTrip ++ roundTrip) =
      some t ∧ t.submitted.length = 2 ∧ t.invoked = List.range 2 := by
  have hr := fun t => callbacks_once_in_order smallConfig 3 3 8 0 (by decide) (by decide)
    (by decide) (fun _ => .memcpy 0 0 0) (roundTrip ++ roundTrip) (by decide) (t := t)
  exact ⟨_,rfl,rfl,(hr _ rfl).2.2 rfl rfl⟩

/-- The third call takes the slot of the first, whose callback no handler has seen. -/
theorem late_handler_loses_callbacks :
    ∃ t,exec (step smallConfig) (init 2 2 8 0 (fun _ => .memcpy 0 0 0))
        [copyOnce,.hardware,.hardware,copyOnce,.hardware,.hardware,copyOnce,.hardware,.hardware,
        .handle] = some t ∧
      t.chan.executed = t.chan.programmed ∧ t.pending = false ∧ t.submitted.length = 3 ∧
      t.invoked = [2] :=
  ⟨_,rfl,rfl,rfl,rfl,rfl⟩

end Mpss.Proofs.CallbacksOnce
