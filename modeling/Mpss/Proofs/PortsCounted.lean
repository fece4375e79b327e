import Mpss.Library.Runs
import Mpss.Scif.Ports

namespace Mpss.Proofs.PortsCounted
open Library.Counting Library.Runs Scif.Window Scif.Ports List Option

/-- The count of every port is the number of endpoints that hold it, and a port in use by a bound,
listening or connected endpoint is not free. -/
structure Matched (s : Node) : Prop where
  counted : ∀ p,s.ports.count p = holders Endpt.held s.eps p
  inUse : ∀ e ∈ s.eps,e.state = .bound ∨ e.state = .listening ∨ e.state = .connected →
    s.ports e.port ≠ none

def FreePort (ports : PortTable) : Prop := ∃ id,scifPortRsvd < id ∧ id < scifPortCount ∧
    ports id = none

/-- Giving back the last reference to `p` leaves no accepted endpoint on `p` that is connected and
has yet to take its own. -/
def Quiet (s : Node) (p : Nat) : Prop :=
  s.ports p = some 1 → ∀ c ∈ s.eps,c.call = .accepting → c.state = .connected → c.port ≠ p

/-- The steps at which the references stay matched. At the others a failed allocation is taken for
a port number, the listener has given the port up while its accept waited, `oldstate` does not tell
of a disconnect during the close, or `scif_accept` has yet to take its reference. -/
def Allowed (s : Node) : Act → Prop
  | .on i a => ∀ ep,s.eps[i]? = some ep →
    match a with
    | .bind pn _ mem => ep.state = .unbound → pn = 0 → mem = true ∧ FreePort s.ports
    | .connect _ mem => ep.state = .unbound → mem = true ∧ FreePort s.ports
    | .grantAcked => s.ports ep.port ≠ none
    | .release => ∀ oldstate,ep.call = .closing oldstate true → oldstate ≠ .disconnected →
        (ep.state = .disconnected → s.ports ep.port = none) ∧ Quiet s ep.port
    | .discntAck => (ep.state = .zombie → s.ports ep.port = none) ∧ Quiet s ep.port
    | .discnct => ep.list = .connected → ep.call ≠ .accepting ∧ Quiet s ep.port
    | .invalidate _ => ep.list = .connected → ep.call ≠ .accepting ∧ Quiet s ep.port
    | _ => True
  | _ => True

def Holding (e : Endpt) : Prop := e.held = some e.port ∧ e.port ≠ 0

def Off (e : Endpt) : Prop := e.list ≠ .connected ∧ e.discntAckDue = false

/-- Where an endpoint can be in its life, and whether it holds its port there. -/
def Shape (e : Endpt) : Prop :=
  match e.call with
  | .idle =>
    match e.state with
    | .unbound => e.held = none ∧ e.port = 0 ∧ Off e
    | .bound | .listening | .cllisten | .connecting | .mapping => Holding e ∧ Off e
    | .connected => Holding e ∧ e.discntAckDue = false
    | .disconnected => e.held = none ∧ Off e
    | .closing | .zombie => False
  | .connecting =>
    (e.state = .connecting ∨ e.state = .mapping ∨ e.state = .bound) ∧ Holding e ∧ Off e
  | .accepting =>
    e.held = none ∧ e.port ≠ 0 ∧ e.discntAckDue = false ∧
      (e.state = .connected ∨ (e.state = .connecting ∨ e.state = .closing) ∧ e.list ≠ .connected)
  | .closing oldstate detached =>
    match e.state with
    | .closing =>
      match oldstate with
      | .unbound => e.held = none ∧ e.port = 0 ∧ Off e
      | .disconnected => e.held = none ∧ Off e
      | .connected => Holding e ∧ (detached = true → e.list ≠ .connected) ∧
          (e.list = .connected → e.discntAckDue = false)
      | .closing | .zombie => False
      | _ => Holding e ∧ Off e
    | .disconnected => e.held = none ∧ Off e
    | _ => False
  | .gone =>
    e.held = none ∧ e.list ≠ .connected ∧ (e.discntAckDue = true → e.state = .zombie) ∧
      (e.state = .zombie ∨ e.state = .connecting ∨ e.state = .closing ∨ e.state = .disconnected)

structure Inv (s : Node) : Prop where
  shapes : ∀ e ∈ s.eps,Shape e
  counted : Counted s.ports Endpt.held s.eps
  waiting : ∀ e ∈ s.eps,e.call = .accepting → e.state = .connected → s.ports e.port ≠ none

theorem Shape.holding (h : Shape e) (hc : e.call ≠ .accepting)
    (hs : e.state = .bound ∨ e.state = .listening ∨ e.state = .connected) : Holding e := by
  unfold Shape at h
  cases hcl : e.call with
  | idle => rcases hs with hs | hs | hs <;> simp only [hcl,hs] at h <;> exact h.1
  | connecting =>
    simp only [hcl] at h
    exact h.2.1
  | accepting => exact absurd hcl hc
  | closing oldstate detached => rcases hs with hs | hs | hs <;> simp only [hcl,hs] at h
  | gone => rcases hs with hs | hs | hs <;> simp [hcl,hs] at h

theorem Inv.matched (h : Inv s) : Matched s := by
  refine ⟨h.counted.count,?_⟩
  intro e he hs
  have hsh := h.shapes e he
  by_cases hc : e.call = .accepting
  · have hst : e.state = .connected := by
      simp only [Shape,hc] at hsh
      rcases hs with hs | hs | hs <;> simp_all
    exact h.waiting e he hc hst
  · exact h.counted.in_use he (hsh.holding hc hs).1

/-- Replacing one endpoint keeps the invariant if the table still counts the holders and keeps the
ports of waiting accepts. -/
theorem Inv.update (h : Inv s) (hs : Shape ep') (hc : Counted ports' Endpt.held (s.eps.set i ep'))
    (hw : ep'.call = .accepting → ep'.state = .connected → ports' ep'.port ≠ none)
    (hk : ∀ c ∈ s.eps,c.call = .accepting → c.state = .connected → ports' c.port ≠ none) :
    Inv ⟨ports',s.eps.set i ep'⟩ := by
  refine ⟨?_,hc,?_⟩
  · intro e he
    rcases mem_or_eq_of_mem_set he with hm | rfl
    · exact h.shapes e hm
    · exact hs
  · intro e he
    rcases mem_or_eq_of_mem_set he with hm | rfl
    · exact hk e hm
    · exact hw

section
variable {i : Nat} (h : Inv s) (he : s.eps[i]? = some ep) (hs : Shape ep')
include h he hs

theorem Inv.relabel (hh : ep'.held = ep.held)
    (hw : ep'.call = .accepting → ep'.state = .connected → s.ports ep'.port ≠ none) :
    Inv ⟨s.ports,s.eps.set i ep'⟩ :=
  h.update hs (h.counted.same he hh) hw h.waiting

theorem Inv.reserve (hf : s.ports p = none) (hn : ep.held = none) (hh : ep'.held = some p)
    (hw : ep'.call ≠ .accepting) : Inv ⟨s.ports.reserve p,s.eps.set i ep'⟩ :=
  h.update hs (h.counted.reserve he hf hn hh) (fun hc => absurd hc hw)
    (fun c hm hc ht => reserve_in_use (h.waiting c hm hc ht))

theorem Inv.put (hk : Holding ep) (hh : ep'.held = none) (hw : ep'.call ≠ .accepting)
    (hq : Quiet s ep.port) : Inv ⟨scifPutPort s.ports ep.port,s.eps.set i ep'⟩ := by
  have hp : scifPutPort s.ports ep.port = s.ports.put ep.port := if_neg hk.2
  rw [hp]
  refine h.update hs (h.counted.put he hk.1 hh) (fun hc => absurd hc hw) ?_
  intro c hm hc ht
  refine put_in_use (h.waiting c hm hc ht) ?_ (h.counted.used _)
  intro hpr hl
  exact hq hl c hm hc ht hpr

theorem Inv.put_nothing (hf : ep.port = 0 ∨ s.ports ep.port = none) (hh : ep'.held = ep.held)
    (hw : ep'.call ≠ .accepting) : Inv ⟨scifPutPort s.ports ep.port,s.eps.set i ep'⟩ := by
  have hp : scifPutPort s.ports ep.port = s.ports := by
    unfold scifPutPort
    split_ifs with hz
    · rfl
    · rcases hf with hf | hf
      · exact absurd hf hz
      · exact put_free hf
  rw [hp]
  exact h.relabel he hs hh (fun hc => absurd hc hw)

end

theorem idr_alloc_free (h : idrAlloc ports start last = some port) :
    start ≤ port ∧ port < last ∧ ports port = none := by
  have hm := mem_of_find?_eq_some h
  have hp := find?_some h
  rw [mem_range'_1] at hm
  exact ⟨hm.1,by omega,by simpa using hp⟩

theorem get_port_in (ports : PortTable) (start last : Nat) (mem : Bool) :
    (∃ port : Nat,start ≤ port ∧ port < last ∧ ports port = none ∧
      scifGetPortIn ports start last mem = ((port : Int),ports.reserve port)) ∨
    (∃ err : Int,err < 0 ∧ scifGetPortIn ports start last mem = (err,ports)) := by
  unfold scifGetPortIn
  cases mem with
  | false => exact .inr ⟨-enomem,by decide,rfl⟩
  | true =>
    cases ha : idrAlloc ports start last with
    | none => exact .inr ⟨-enospc,by decide,rfl⟩
    | some port =>
      obtain ⟨hs,hl,hf⟩ := idr_alloc_free ha
      exact .inl ⟨port,hs,hl,hf,rfl⟩

theorem get_new_port (hf : FreePort ports) :
    ∃ port : Nat,scifPortRsvd < port ∧ port < scifPortCount ∧ ports port = none ∧
      scifGetNewPort ports true = ((port : Int),ports.reserve port) := by
  obtain ⟨free,hlo,hhi,hfr⟩ := hf
  cases ha : idrAlloc ports (scifPortRsvd + 1) scifPortCount with
  | none =>
    have hal := find?_eq_none.mp ha
    have hm : free ∈ range' (scifPortRsvd + 1) (scifPortCount - (scifPortRsvd + 1)) := by
      rw [mem_range'_1]
      omega
    exact absurd (by simp [hfr]) (hal free hm)
  | some port =>
    obtain ⟨hs,hl,hn⟩ := idr_alloc_free ha
    refine ⟨port,hs,hl,hn,?_⟩
    simp [scifGetNewPort,scifGetPortIn,ha]

theorem toU16_port (hl : port < scifPortCount) : toU16 (port : Nat) = port := by
  unfold toU16 scifPortCount at *
  omega

theorem Shape.unbound (h : Shape e) (hc : e.call = .idle) (hs : e.state = .unbound) :
    e.held = none ∧ e.port = 0 ∧ Off e := by
  simpa only [Shape,hc,hs] using h

theorem Shape.connected (h : Shape e) (hl : e.list = .connected) (hc : e.call ≠ .accepting) :
    Holding e ∧ e.discntAckDue = false ∧
      (e.call = .idle ∨ ∃ oldstate detached,e.call = .closing oldstate detached) := by
  unfold Shape at h
  cases hcl : e.call with
  | idle =>
    cases hst : e.state <;> simp only [hcl,hst,Off] at h
    case connected => exact ⟨h.1,h.2,.inl rfl⟩
    all_goals grind
  | connecting =>
    simp only [hcl] at h
    exact absurd hl h.2.2.1
  | accepting => exact absurd hcl hc
  | closing oldstate detached =>
    cases hst : e.state <;> simp only [hcl,hst,Off] at h
    case closing =>
      cases oldstate <;> simp only at h
      case unbound => exact absurd hl h.2.2.1
      case connected => exact ⟨h.1,h.2.2 hl,.inr ⟨_,_,rfl⟩⟩
      all_goals exact absurd hl h.2.1
    case disconnected => exact absurd hl h.2.1
  | gone =>
    simp only [hcl] at h
    exact absurd hl h.2.1

section
variable {i : Nat} (h : Inv s) (he : s.eps[i]? = some ep)
include h he

theorem Inv.bind (hc : ep.call = .idle) (pn : UInt16) (ha : Allowed s (.on i (.bind pn admin mem))) :
    Inv ⟨(scifBind s.ports ep pn.toNat admin mem).2.2,
      s.eps.set i (scifBind s.ports ep pn.toNat admin mem).2.1⟩ := by
  have hm := mem_of_getElem? he
  have hs := h.shapes ep hm
  have hsm : Inv ⟨s.ports,s.eps.set i ep⟩ := h.relabel he hs rfl (h.waiting ep hm)
  unfold scifBind
  split
  · exact hsm
  split
  · exact hsm
  split
  · exact hsm
  rename_i hst
  have hst : ep.state = .unbound := not_not.mp hst
  obtain ⟨hn,_,ho⟩ := hs.unbound hc hst
  split_ifs with hpn
  · rcases get_port_in s.ports pn.toNat (pn.toNat + 1) mem with ⟨port,hlo,hhi,hf,hr⟩ | ⟨err,hng,hr⟩
    · have hp : port = pn.toNat := by omega
      subst hp
      simp only [scifRsrvPort,hr,ne_eq,not_true_eq_false,if_false]
      refine h.reserve he ?_ hf hn rfl (by simp [hc])
      simp only [Shape,hc]
      exact ⟨⟨rfl,hpn⟩,ho⟩
    · have hne : err ≠ (pn.toNat : Int) := by omega
      simp only [scifRsrvPort,hr,hne,ne_eq,not_false_eq_true,if_true]
      exact hsm
  · have hz : pn = 0 := UInt16.toNat_inj.mp (by simpa using hpn)
    obtain ⟨rfl,hfr⟩ := ha ep he hst hz
    obtain ⟨port,hlo,hhi,hf,hr⟩ := get_new_port hfr
    have hp : port ≠ 0 := by omega
    simp only [hr,toU16_port hhi,hp,if_false]
    refine h.reserve he ?_ hf hn rfl (by simp [hc])
    simp only [Shape,hc]
    exact ⟨⟨rfl,hp⟩,ho⟩

theorem Inv.connect (hc : ep.call = .idle) (ha : Allowed s (.on i (.connect node mem))) :
    Inv ⟨(scifConnect s.ports ep node mem).2.2,
      s.eps.set i (scifConnect s.ports ep node mem).2.1⟩ := by
  have hm := mem_of_getElem? he
  have hs := h.shapes ep hm
  have hsm : Inv ⟨s.ports,s.eps.set i ep⟩ := h.relabel he hs rfl (h.waiting ep hm)
  cases hst : ep.state with
  | unbound =>
    obtain ⟨hn,_,ho⟩ := hs.unbound hc hst
    obtain ⟨rfl,hfr⟩ := ha ep he hst
    obtain ⟨port,hlo,hhi,hf,hr⟩ := get_new_port hfr
    have hp : port ≠ 0 := by omega
    simp only [scifConnect,hst,hr,toU16_port hhi,hp,if_false]
    refine h.reserve he ?_ hf hn rfl (by simp)
    simp only [Shape]
    exact ⟨.inl trivial,⟨rfl,hp⟩,ho⟩
  | bound =>
    simp only [scifConnect,hst]
    refine h.relabel he ?_ rfl (by simp)
    simp only [Shape,hc,hst] at hs ⊢
    exact ⟨.inl trivial,hs⟩
  | _ =>
    simp only [scifConnect,hst]
    exact hsm

theorem Inv.accepted (hc : ep.call = .accepting) (hs : ep.state ≠ .connecting) :
    Inv ⟨(acceptReturn s.ports ep).2,s.eps.set i (acceptReturn s.ports ep).1⟩ := by
  have hm := mem_of_getElem? he
  have hsh := h.shapes ep hm
  simp only [Shape,hc] at hsh
  obtain ⟨hn,hp,ha,hst⟩ := hsh
  rcases hst with hst | ⟨hst,ho⟩
  · have hne : ¬ ep.state = .closing := by simp [hst]
    have hg : scifGetPort s.ports ep.port = s.ports.get ep.port := if_neg hp
    simp only [acceptReturn,hne,if_false,hg]
    have hu := h.waiting ep hm hc hst
    refine h.update ?_ (h.counted.get he hu hn rfl) (by simp)
      (fun c hcm hcc hct => get_in_use (h.waiting c hcm hcc hct))
    simp only [Shape,hst]
    exact ⟨⟨rfl,hp⟩,ha⟩
  · have hst : ep.state = .closing := hst.resolve_left hs
    simp only [acceptReturn,hst,if_true]
    refine h.relabel he ?_ rfl (by simp)
    simp only [Shape]
    exact ⟨hn,ho,by simp [ha],.inr (.inr (.inl trivial))⟩

theorem Inv.disconnect (hl : ep.list = .connected) (ha : ep.call ≠ .accepting ∧ Quiet s ep.port) :
    Inv ⟨(disconnectConnected s.ports ep).2,s.eps.set i (disconnectConnected s.ports ep).1⟩ := by
  obtain ⟨hh,hac,hc⟩ := (h.shapes ep (mem_of_getElem? he)).connected hl ha.1
  refine h.put he ?_ hh rfl ha.1 ha.2
  rcases hc with hc | ⟨oldstate,detached,hc⟩ <;>
    · simp only [Shape,disconnectConnected,hc]
      exact ⟨trivial,by simp [Off,hac]⟩

theorem Inv.discntAck (hd : ep.discntAckDue = true) (ha : Allowed s (.on i .discntAck)) :
    Inv ⟨(scifDiscntAck s.ports ep).2,s.eps.set i (scifDiscntAck s.ports ep).1⟩ := by
  obtain ⟨hz,hq⟩ := ha ep he
  have hs := h.shapes ep (mem_of_getElem? he)
  unfold Shape at hs
  cases hc : ep.call with
  | idle => cases hst : ep.state <;> simp [hc,hst,Off,hd] at hs
  | connecting => simp [hc,Off,hd] at hs
  | accepting => simp [hc,hd] at hs
  | closing oldstate detached =>
    have hh : Holding ep ∧ ep.list ≠ .connected := by
      cases hst : ep.state <;> simp only [hc,hst,Off,hd] at hs
      case closing =>
        cases oldstate <;> simp at hs
        exact ⟨hs.1,hs.2.2⟩
      case disconnected => simp at hs
    refine h.put he ?_ hh.1 rfl (by simp [scifDiscntAck,hc]) hq
    simp only [Shape,scifDiscntAck,hc]
    exact ⟨trivial,hh.2,rfl⟩
  | gone =>
    simp only [hc] at hs
    obtain ⟨hn,hl,hzm,_⟩ := hs
    refine h.put_nothing he ?_ (.inr (hz (hzm hd))) hn.symm (by simp [scifDiscntAck,hc])
    simp [Shape,scifDiscntAck,hc,hl]

end

theorem closeDetach_same (e : Endpt) (oldstate : EpState) (sent : Bool) :
    (closeDetach e oldstate sent).state = e.state ∧ (closeDetach e oldstate sent).held = e.held ∧
      (closeDetach e oldstate sent).port = e.port := by
  unfold closeDetach scifDisconnectEp
  cases oldstate <;> (repeat' split) <;> exact ⟨rfl,rfl,rfl⟩

theorem closeDetach_off (e : Endpt) (oldstate : EpState) (sent : Bool) (ho : Off e) :
    Off (closeDetach e oldstate sent) := by
  unfold closeDetach scifDisconnectEp
  cases oldstate <;> (repeat' split) <;> simp_all [Off]

theorem closeDetach_connected (e : Endpt) (sent : Bool) :
    (closeDetach e .connected sent).list ≠ .connected := by
  simp only [closeDetach,scifDisconnectEp]
  split
  · simp
  · split
    · simp
    · assumption

/-- The end of a close: if the endpoint was disconnected meanwhile, its port has to be free for the
second put. -/
theorem Inv.release (h : Inv s) (he : s.eps[i]? = some ep)
    (hc : ep.call = .closing oldstate true) (ha : Allowed s (.on i .release)) :
    Inv ⟨(closeRelease s.ports ep oldstate).2,s.eps.set i (closeRelease s.ports ep oldstate).1⟩ := by
  have hsh := h.shapes ep (mem_of_getElem? he)
  simp only [Shape,hc] at hsh
  by_cases ho : oldstate = .disconnected
  · subst ho
    simp only [closeRelease,ne_eq,not_true_eq_false,if_false]
    have hn : ep.held = none := by
      cases hs : ep.state <;> simp only [hs] at hsh <;> exact hsh.1
    refine h.relabel he ?_ rfl (by simp)
    simp [Shape,hn]
  obtain ⟨hz,hq⟩ := ha ep he oldstate hc ho
  simp only [closeRelease,ho,ne_eq,not_false_eq_true,if_true]
  cases hs : ep.state <;> simp only [hs] at hsh
  case closing =>
    by_cases hu : oldstate = .unbound
    · subst hu
      refine h.put_nothing he ?_ (.inl hsh.2.1) hsh.1.symm (by simp)
      simp [Shape]
    have hh : Holding ep := by
      cases oldstate <;> simp only at hsh
      case unbound => exact absurd rfl hu
      case disconnected => exact absurd rfl ho
      all_goals exact hsh.1
    refine h.put he ?_ hh rfl (by simp) hq
    simp [Shape]
  case disconnected =>
    refine h.put_nothing he ?_ (.inr (hz hs)) hsh.1.symm (by simp)
    simp [Shape]

section
variable (h : Shape e)
include h

theorem Shape.closed (hc : e.call = .idle) :
    Shape { e with state := .closing,call := .closing e.state false } := by
  simp only [Shape,hc] at h ⊢
  cases hst : e.state <;> simp only [hst] at h ⊢
  case connected => exact ⟨h.1,by simp,fun _ => h.2⟩
  all_goals exact h

theorem Shape.detached (hc : e.call = .closing oldstate false) (sent : Bool) :
    Shape { closeDetach e oldstate sent with call := .closing oldstate true } := by
  obtain ⟨hst,hh,hp⟩ := closeDetach_same e oldstate sent
  have ho := closeDetach_off e oldstate sent
  simp only [Shape,hc] at h
  simp only [Shape,hst]
  cases hs : e.state <;> simp only [hs] at h ⊢
  case closing =>
    cases oldstate <;> simp only at h ⊢
    case unbound => exact ⟨hh.trans h.1,hp.trans h.2.1,ho h.2.2⟩
    case disconnected => exact ⟨hh.trans h.1,ho h.2⟩
    case connected =>
      have hl := closeDetach_connected e sent
      exact ⟨by simpa only [Holding,hh,hp] using h.1,fun _ => hl,fun hc => absurd hc hl⟩
    all_goals exact ⟨by simpa only [Holding,hh,hp] using h.1,ho h.2⟩
  case disconnected => exact ⟨hh.trans h.1,ho h.2⟩

theorem Shape.listened (hc : e.call = .idle) : Shape (scifListen e).2 := by
  cases hs : e.state <;> simp only [scifListen,hs]
  case bound =>
    simp only [Shape,hc,hs] at h ⊢
    exact ⟨h.1,by simp [Off,h.2.2]⟩
  all_goals exact h

theorem Shape.flushed (hc : e.call = .idle) : Shape (scifFlush e) := by
  unfold scifFlush
  split_ifs with hs
  · simp only [Shape,hc,hs] at h ⊢
    exact h
  · exact h

theorem Shape.moved (hc : e.call = .idle ∨ e.call = .connecting)
    (hs : e.state = .connecting) (ht : state = .mapping ∨ state = .bound) :
    Shape { e with state := state } := by
  rcases hc with hc | hc <;> rcases ht with rfl | rfl <;> simp only [Shape,hc,hs] at h ⊢
  · exact h
  · exact h
  all_goals exact ⟨by simp,h.2⟩

theorem Shape.conn_returned (hc : e.call = .connecting)
    (ht : state = e.state ∨ state = .bound) : Shape { e with state := state,call := .idle } := by
  simp only [Shape,hc] at h
  obtain ⟨hs,hh,ho⟩ := h
  rcases ht with rfl | rfl
  · rcases hs with hs | hs | hs <;> simp only [Shape,hs] <;> exact ⟨hh,ho⟩
  · exact ⟨hh,ho⟩

end

theorem scifListen_held : (scifListen e).2.held = e.held ∧ (scifListen e).2.call = e.call := by
  unfold scifListen
  split <;> exact ⟨rfl,rfl⟩

theorem scifFlush_held : (scifFlush e).held = e.held ∧ (scifFlush e).call = e.call := by
  unfold scifFlush
  split <;> exact ⟨rfl,rfl⟩

def Kept (s : Node) (i : Nat) (r : Endpt × PortTable) : Prop := Inv ⟨r.2,s.eps.set i r.1⟩

theorem Inv.act (h : Inv s) (he : s.eps[i]? = some ep) (ha : Allowed s (.on i a))
    (hr : ep.act s.ports a = some r) : Kept s i r := by
  have hm := mem_of_getElem? he
  have hsh := h.shapes ep hm
  cases a with
  | bind pn admin mem => exact of_guard hr fun hc => h.bind he hc pn ha
  | listen =>
    refine of_guard hr fun hc => ?_
    obtain ⟨hh,hcl⟩ := scifListen_held
    exact h.relabel he (hsh.listened hc) hh (by simp [hcl,hc])
  | flush =>
    refine of_guard hr fun hc => ?_
    obtain ⟨hh,hcl⟩ := scifFlush_held
    exact h.relabel he (hsh.flushed hc) hh (by simp [hcl,hc])
  | connect node mem => exact of_guard hr fun hc => h.connect he hc ha
  | granted => exact of_guard hr fun ⟨hc,hs⟩ => h.relabel he (hsh.moved hc hs (.inl rfl)) rfl (by simp)
  | rejected =>
    exact of_guard hr fun ⟨hc,hs⟩ => h.relabel he (hsh.moved hc hs (.inr rfl)) rfl (by simp)
  | refused => exact of_guard hr fun hc => h.relabel he (hsh.conn_returned hc (.inr rfl)) rfl (by simp)
  | abandoned =>
    exact of_guard hr fun hc => h.relabel he (hsh.conn_returned hc (.inl rfl)) rfl (by simp)
  | established =>
    refine of_guard hr fun ⟨hc,hs⟩ => ?_
    simp only [Shape,hc] at hsh
    exact h.relabel he ⟨hsh.2.1,hsh.2.2.2⟩ rfl (by simp)
  | acceptFailed =>
    refine of_guard hr fun ⟨hc,hs⟩ => ?_
    simp only [Shape,hc,hs] at hsh
    refine h.relabel he ?_ rfl (by simp)
    simp only [Shape,hs]
    exact ⟨hsh.1,by simpa using hsh.2.2.2,by simp [hsh.2.2.1],by simp⟩
  | grantAcked =>
    refine of_guard hr fun ⟨hc,hs⟩ => ?_
    simp only [Shape,hc] at hsh
    refine h.relabel he ?_ rfl (fun _ _ => ha ep he)
    simp only [Shape,hc]
    exact ⟨hsh.1,hsh.2.1,hsh.2.2.1,by simp⟩
  | grantNacked =>
    refine of_guard hr fun ⟨hc,hs⟩ => ?_
    simp only [Shape,hc,hs] at hsh
    refine h.relabel he ?_ rfl (by simp)
    simp only [Shape,hc]
    exact ⟨hsh.1,hsh.2.1,hsh.2.2.1,by simpa using hsh.2.2.2⟩
  | acceptReturn => exact of_guard hr fun ⟨hc,hs⟩ => h.accepted he hc hs
  | close => exact of_guard hr fun hc => h.relabel he (hsh.closed hc) rfl (by simp)
  | detach sent =>
    simp only [Endpt.act] at hr
    split at hr
    · rename_i oldstate hc
      cases hr
      exact h.relabel he (hsh.detached hc sent) (closeDetach_same ep oldstate sent).2.1 (by simp)
    · cases hr
  | release =>
    simp only [Endpt.act] at hr
    split at hr
    · rename_i oldstate hc
      cases hr
      exact h.release he hc ha
    · cases hr
  | discnct =>
    simp only [Endpt.act] at hr
    split_ifs at hr with hl
    · cases hr
      exact h.disconnect he hl (ha ep he hl)
    · cases hr
      exact h.relabel he hsh rfl (h.waiting ep hm)
  | discntAck => exact of_guard hr fun hd => h.discntAck he hd ha
  | invalidate node => exact of_guard hr fun ⟨hl,hn⟩ => h.disconnect he hl (ha ep he hl)

theorem Inv.append (h : Inv s) (hs : Shape e) (hh : e.held = none) (hc : e.state ≠ .connected) :
    Inv { s with eps := s.eps ++ [e] } := by
  refine ⟨?_,h.counted.append hh,?_⟩
  · exact forall_mem_append.mpr ⟨h.shapes,forall_mem_singleton.mpr hs⟩
  · exact forall_mem_append.mpr ⟨h.waiting,forall_mem_singleton.mpr (fun _ ht => absurd ht hc)⟩

theorem Inv.step (h : Inv s) (ha : Allowed s a) (hr : s.step a = some t) : Inv t := by
  cases a with
  | «open» =>
    cases hr
    exact h.append (by simp [Shape,scifOpen,Off]) rfl (by simp [scifOpen])
  | accept i node =>
    simp only [Node.step] at hr
    split at hr
    · rename_i lep he
      obtain ⟨⟨hc,hs⟩,hr⟩ := ite_none_right_eq_some.mp hr
      cases hr
      have hsh := h.shapes lep (mem_of_getElem? he)
      simp only [Shape,hc,hs] at hsh
      refine h.append ?_ rfl (by simp [acceptedEndpt])
      simp [Shape,acceptedEndpt,hsh.1.2]
    · cases hr
  | on i a =>
    simp only [Node.step] at hr
    split at hr
    · rename_i ep he
      obtain ⟨r,hac,rfl⟩ := map_eq_some_iff.mp hr
      exact h.act he ha hac
    · cases hr

theorem Inv.init : Inv Node.init :=
  ⟨by simp [Node.init],⟨by simp [Node.init,Refs.count,holders],by simp [Node.init]⟩,
    by simp [Node.init]⟩

/-- In every run whose steps are allowed, the port counts are the numbers of holders. -/
theorem port_references_matched (as : List Act) (s : Node)
    (ha : Along Node.step Allowed Node.init as) (he : exec Node.step Node.init as = some s) :
    Matched s :=
  (exec_invariant (fun _ _ _ hi ha hr => Inv.step hi ha hr) Inv.init ha he).matched

def acceptOne : List Act :=
  [.open,.on 0 (.bind 2000 true true),.on 0 .listen,.accept 0 1,.on 1 .grantAcked,.on 1 .acceptReturn]

theorem port_references_matched_accept :
    ∃ s,exec Node.step Node.init (acceptOne ++ [.on 1 .discnct]) = some s ∧ Matched s := by
  refine ⟨_,rfl,port_references_matched (acceptOne ++ [.on 1 .discnct]) _ ?_ rfl⟩
  refine .cons trivial rfl (.cons ?_ rfl (.cons ?_ rfl (.cons trivial rfl (.cons ?_ rfl
    (.cons ?_ rfl (.cons ?_ rfl trivial))))))
  · rintro ep he - hz
    cases hz
  · exact fun _ _ => trivial
  · rintro ep he
    cases he
    decide
  · exact fun _ _ => trivial
  · rintro ep he -
    cases he
    refine ⟨by decide,?_⟩
    rintro hl
    cases hl

/-- The ACK comes before `scif_close` of the accepted endpoint goes on: both put the port, and the
listener is left on a free one. -/
theorem ack_before_close_frees_listener :
    ∃ s,exec Node.step Node.init
        (acceptOne ++ [.on 1 .close,.on 1 (.detach true),.on 1 .discntAck,.on 1 .release]) = some s ∧
      ¬ Matched s := by
  refine ⟨_,rfl,fun h => ?_⟩
  exact h.inUse _ mem_cons_self (.inr (.inl rfl)) rfl

end Mpss.Proofs.PortsCounted
