import Mpss.Proofs.PortsCounted

namespace Mpss.Proofs.BindReserves
open Library.Counting Scif.Window Scif.Ports PortsCounted

/-- The endpoint has got a port that was free, and holds its only reference. -/
def Reserves (before : PortTable) (ep : Endpt) (after : PortTable) : Prop :=
  0 < ep.port ∧ before ep.port = none ∧ after ep.port = some 1

def Reservable (ports : PortTable) (pn : Nat) (mem : Bool) : Prop :=
  mem = true ∧ if pn = 0 then FreePort ports else ports pn = none

def BindRight (ports : PortTable) (ep : Endpt) (pn : Nat) (admin mem : Bool) : Prop :=
  let r := scifBind ports ep pn admin mem
  (0 < r.1 → r.1 = r.2.1.port ∧ Reserves ports r.2.1 r.2.2) ∧
  (¬ Reservable ports pn mem → r.1 < 0 ∧ r.2 = (ep,ports))

/-- The same for an unbound endpoint that is to be connected: it is bound, or there is an error. -/
def ConnectRight (ports : PortTable) (ep : Endpt) (node : Nat) (mem : Bool) : Prop :=
  let r := scifConnect ports ep node mem
  ep.state = .unbound →
    (0 ≤ r.1 → Reserves ports r.2.1 r.2.2) ∧
    (¬ Reservable ports 0 mem → r.1 < 0 ∧ r.2 = (ep,ports))

theorem new_port_fails (h : ¬ Reservable ports 0 mem) :
    ∃ err ∈ [-enospc,-enomem],scifGetNewPort ports mem = (err,ports) := by
  unfold scifGetNewPort scifGetPortIn
  cases mem with
  | false => exact ⟨-enomem,by decide,rfl⟩
  | true =>
    cases ha : idrAlloc ports (scifPortRsvd + 1) scifPortCount with
    | none => exact ⟨-enospc,by decide,rfl⟩
    | some port =>
      obtain ⟨hs,hl,hf⟩ := idr_alloc_free ha
      exact absurd ⟨rfl,port,hs,hl,hf⟩ h

/-- Both errors of `scif_get_new_port` are numbers of ports once they are stored in a `u16`. -/
theorem error_is_port (h : err ∈ [-enospc,-enomem]) : 0 < toU16 err := by
  rcases List.mem_pair.mp h with rfl | rfl
  all_goals decide

theorem bind_explicit (hp : pn ≠ 0) : BindRight ports ep pn admin mem := by
  unfold BindRight scifBind
  by_cases ha : pn ≠ 0 ∧ pn < scifAdminPortEnd ∧ admin = false
  · simp [ha,eacces]
  by_cases hb : ep.state = .bound
  · simp [ha,hb,einval]
  by_cases hu : ep.state = .unbound
  · simp only [if_neg ha,if_neg hb,if_neg (not_not_intro hu),if_pos hp]
    rcases get_port_in ports pn (pn + 1) mem with ⟨port,hlo,hhi,hf,hr⟩ | ⟨err,hng,hr⟩
    · have he : port = pn := by omega
      subst he
      have hm : mem = true := by
        cases mem with
        | true => rfl
        | false =>
          have : (-enomem,ports).1 = ((port : Int),ports.reserve port).1 := congrArg Prod.fst hr
          simp only [enomem] at this
          omega
      subst hm
      simp [scifRsrvPort,hr,Reserves,Reservable,Refs.reserve,hp,hf,Nat.pos_of_ne_zero hp]
    · have hn : err ≠ (pn : Int) := by omega
      simp [scifRsrvPort,hr,hn,einval]
  · simp [ha,hb,hu,eisconn]

theorem bind_any (h : ep.state = .unbound) (hr : Reservable ports 0 mem) :
    BindRight ports ep 0 admin mem := by
  obtain ⟨rfl,hf⟩ := hr
  rw [if_pos rfl] at hf
  obtain ⟨port,hlo,hhi,hfr,hn⟩ := get_new_port hf
  have hp : port ≠ 0 := by omega
  unfold BindRight scifBind
  simp [h,hn,toU16_port hhi,hp,Reserves,Reservable,hf,hfr,Refs.reserve,Nat.pos_of_ne_zero hp]

theorem bind_fails (h : ep.state = .unbound) (hr : ¬ Reservable ports 0 mem) :
    ¬ BindRight ports ep 0 admin mem := by
  intro hb
  obtain ⟨err,he,hn⟩ := new_port_fails hr
  have hp := error_is_port he
  have hng := (hb.2 hr).1
  simp [scifBind,h,hn,ne_of_gt hp] at hng
  omega

theorem connect_right (h : ep.state = .unbound) :
    ConnectRight ports ep node mem ↔ Reservable ports 0 mem := by
  constructor
  · intro hc
    by_contra hr
    obtain ⟨err,he,hn⟩ := new_port_fails hr
    have hp := error_is_port he
    have hng := ((hc h).2 hr).1
    simp [scifConnect,h,hn,Nat.ne_of_gt hp] at hng
  · rintro ⟨rfl,hf⟩
    rw [if_pos rfl] at hf
    obtain ⟨port,hlo,hhi,hfr,hn⟩ := get_new_port hf
    have hp : port ≠ 0 := by omega
    unfold ConnectRight scifConnect
    simp [h,hn,toU16_port hhi,hp,Reserves,Reservable,hf,hfr,Refs.reserve,Nat.pos_of_ne_zero hp]

/-- A port is reserved as it should be unless a number is to be found and none can be had. -/
theorem binding_reserves_iff (ports : PortTable) (ep : Endpt) (pn : UInt16) (node : Nat)
    (admin mem : Bool) :
    (BindRight ports ep pn.toNat admin mem ↔
      (ep.state = .unbound → pn = 0 → mem = true ∧ FreePort ports)) ∧
    (ConnectRight ports ep node mem ↔ (ep.state = .unbound → mem = true ∧ FreePort ports)) := by
  have hr : Reservable ports 0 mem ↔ mem = true ∧ FreePort ports := by simp [Reservable]
  by_cases hu : ep.state = .unbound
  · rw [connect_right hu,hr]
    refine ⟨?_,by simp [hu]⟩
    by_cases hp : pn = 0
    · subst hp
      simp only [hu,forall_const,← hr]
      exact ⟨fun hb => by_contra fun hn => bind_fails hu hn hb,fun h => bind_any hu h⟩
    · have hn : pn.toNat ≠ 0 := fun h => hp (UInt16.toNat_inj.mp h)
      exact iff_of_true (bind_explicit hn) (fun _ h => absurd h hp)
  · refine ⟨iff_of_true ?_ (fun h => absurd h hu),iff_of_true (fun h => absurd h hu)
      (fun h => absurd h hu)⟩
    unfold BindRight scifBind
    by_cases hb : ep.state = .bound
    · split <;> simp [eacces,einval]
    · split <;> simp [eacces,eisconn]

/-- With every port in use an endpoint is bound to the error number. -/
theorem full_table_binds_error :
    (scifBind (fun _ => some 1) scifOpen 0 false true).1 = 65508 ∧
      ¬ BindRight (fun _ => some 1) scifOpen 0 false true := by
  have hf : ¬ FreePort (fun _ => some 1) := by
    rintro ⟨id,-,-,hn⟩
    cases hn
  have ha : idrAlloc (fun _ => some 1) (scifPortRsvd + 1) scifPortCount = none :=
    List.find?_eq_none.mpr (fun _ _ => by simp)
  refine ⟨?_,bind_fails rfl (by simp [Reservable,hf])⟩
  simp [scifBind,scifOpen,scifGetNewPort,scifGetPortIn,ha,toU16,enospc]

end Mpss.Proofs.BindReserves
