import Mpss.Scif.ConnFunc

namespace Mpss.Proofs.ConnectRetry
open Scif.Window Scif.Ports Scif.ConnFunc

/-- A following `scif_connect` can start over. -/
structure Connectable (c : Conn) : Prop where
  bound : c.ep.state = .bound
  unlisted : c.ep.list ≠ .connected
  accepted : ∀ ports node mem,(connectStart ports c node false mem).1 ∉ [-eisconn,-einprogress]

theorem connectable_iff : Connectable ⟨ep,.zero⟩ ↔ ep.state = .bound ∧ ep.list ≠ .connected := by
  constructor
  · exact fun h => ⟨h.bound,h.unlisted⟩
  · rintro ⟨hb,hl⟩
    refine ⟨hb,hl,?_⟩
    intro ports node mem
    simp [connectStart,connectSwitch,connectBound,hb,eisconn,einprogress]

/-- What a blocking call has made of the endpoint when it calls `scif_conn_func`. -/
structure Started (c d : Conn) : Prop where
  state : d.ep.state = .connecting
  list : d.ep.list = c.ep.list
  async : d.async = .zero

theorem bound_starts (he : (connectBound err async false).1 = 0)
    (hf : (connectBound err async false).2 ≠ .flushWork) :
    (connectBound err async false).2 = .zero := by
  cases async with
  | inprogress | flushWork => exact absurd rfl hf
  | zero | idle => rfl

theorem switch_starts (hs : c.ep.state = .unbound ∨ c.ep.state = .bound)
    (he : (connectSwitch ports c false mem).1 = 0)
    (hf : (connectSwitch ports c false mem).2.1.async ≠ .flushWork) :
    (connectSwitch ports c false mem).2.1.async = .zero ∧
      (connectSwitch ports c false mem).2.1.ep.list = c.ep.list := by
  unfold connectSwitch at *
  rcases hs with hs | hs
  · simp only [hs] at he hf ⊢
    by_cases hp : toU16 (scifGetNewPort ports mem).1 = 0
    · simp only [if_pos hp] at he hf ⊢
      exact ⟨bound_starts he hf,trivial⟩
    · simp only [if_neg hp]
      exact ⟨rfl,trivial⟩
  · simp only [hs] at he hf ⊢
    exact ⟨bound_starts he hf,trivial⟩

theorem started (hs : c.ep.state = .unbound ∨ c.ep.state = .bound)
    (he : (connectStart ports c node false mem).1 = 0)
    (hf : (connectStart ports c node false mem).2.1.async ≠ .flushWork) :
    Started c (connectStart ports c node false mem).2.1 := by
  unfold connectStart at *
  simp only at *
  split at he
  · rename_i h
    rw [if_pos h] at hf
    exact absurd h (not_or.mpr ⟨not_not_intro he,hf⟩)
  rename_i h
  obtain ⟨hz,hfl⟩ := not_or.mp h
  obtain ⟨ha,hl⟩ := switch_starts hs (not_not.mp hz) hfl
  rw [if_neg h]
  exact ⟨rfl,hl,ha⟩

structure Underway (ep : Endpt) : Prop where
  state : ep.state = .connecting ∨ ep.state = .mapping ∨ ep.state = .bound
  unlisted : ep.list ≠ .connected

theorem Underway.answer (h : Underway ep) : Underway (cnctAnswer ep a) := by
  unfold cnctAnswer
  split
  · cases a with
    | granted => exact ⟨.inr (.inl rfl),h.unlisted⟩
    | rejected => exact ⟨.inr (.inr rfl),h.unlisted⟩
  · exact h

theorem Underway.answers (h : Underway ep) (l : List Answer) : Underway (l.foldl cnctAnswer ep) := by
  induction l generalizing ep with
  | nil => exact h
  | cons a l ih => exact ih (h.answer)

theorem answers_settled {l : List Answer} (h : ep.state ≠ .connecting) :
    l.foldl cnctAnswer ep = ep := by
  induction l with
  | nil => rfl
  | cons a l ih =>
    have ha : cnctAnswer ep a = ep := if_neg h
    rw [List.foldl_cons,ha]
    exact ih

theorem answers_bound (h : ep.state = .connecting) (l : List Answer) :
    (l.foldl cnctAnswer ep).state = .bound ↔ l.head? = some .rejected := by
  cases l with
  | nil => simp [h]
  | cons a l =>
    cases a with
    | granted | rejected => simp [answers_settled,cnctAnswer,h]

theorem wait_bound (h : Underway ep) (he : (connWait o ep).1 ≠ 0) :
    (connWait o ep).2.state = .bound ∧ (connWait o ep).2.list ≠ .connected := by
  have ha := h.answers o.answers
  unfold connWait at he ⊢
  obtain ⟨hs | hs | hs,hl⟩ := ha
  · simp [hs,hl]
  · by_cases hr : o.respErr = 0
    · by_cases hk : o.ackErr = 0
      · simp [hs,hr,hk] at he
      · simp [hs,hr,hk,hl]
    · simp [hs,hr,hl]
  · simp [hs,hl]

theorem conn_func_bound (o : ConnSteps) (h : ep.state = .connecting) (hl : ep.list ≠ .connected) :
    ((scifConnFunc o ep).1 ≠ 0 →
      (scifConnFunc o ep).2.state = .bound ∧ (scifConnFunc o ep).2.list ≠ .connected) ↔
      o.dmaErr ≠ 0 ∨ o.qpErr ≠ 0 ∨ o.peer = true ∧ o.sendErr = 0 ∨ o.early.head? = some .rejected := by
  have hs : ({ ep with call := .idle } : Endpt).state = .connecting := h
  have hu : Underway { ep with call := .idle } := ⟨.inl hs,hl⟩
  have he := (hu.answers o.early).unlisted
  have hb := answers_bound hs o.early
  unfold scifConnFunc
  by_cases hd : o.dmaErr = 0
  · by_cases hqp : o.qpErr = 0
    · cases hp : o.peer with
      | false => simp [hd,hqp,he,hb,enodev]
      | true =>
        by_cases hsn : o.sendErr = 0
        · simpa [hd,hqp,hsn] using wait_bound (hu.answers o.early)
        · simp [hd,hqp,he,hb,hsn]
    · simp [hd,hqp,hl]
  · simp [hd,hl]

/-- A blocking `scif_connect` that fails leaves the endpoint connectable just when the attempt came
to its wait, failed before the request, or was rejected early. -/
theorem failed_connect_iff (ports : PortTable) (c : Conn) (node : Nat) (mem : Bool) (o : ConnSteps)
    (hs : c.ep.state = .unbound ∨ c.ep.state = .bound) (hl : c.ep.list ≠ .connected)
    (he : (connectStart ports c node false mem).1 = 0)
    (hf : (connectStart ports c node false mem).2.1.async ≠ .flushWork) :
    ((scifConnFunc o (connectStart ports c node false mem).2.1.ep).1 ≠ 0 →
      Connectable ⟨(scifConnFunc o (connectStart ports c node false mem).2.1.ep).2,
        (connectStart ports c node false mem).2.1.async⟩) ↔
    o.dmaErr ≠ 0 ∨ o.qpErr ≠ 0 ∨ o.peer = true ∧ o.sendErr = 0 ∨ o.early.head? = some .rejected := by
  have h := started hs he hf
  rw [h.async,connectable_iff]
  exact conn_func_bound o h.state (h.list ▸ hl)

def boundEp : Endpt := { scifOpen with state := .bound,port := 1100,held := some 1100 }

theorem timeout_connectable :
    Connectable ⟨(scifConnFunc ⟨0,0,[],true,0,[],0,0,0⟩
      (connectStart (fun _ => none) ⟨boundEp,.idle⟩ 1 false true).2.1.ep).2,.zero⟩ :=
  (failed_connect_iff _ ⟨boundEp,.idle⟩ 1 true ⟨0,0,[],true,0,[],0,0,0⟩ (.inr rfl) (by decide)
    rfl (by decide)).mpr (.inr (.inr (.inl ⟨rfl,rfl⟩))) (by decide)

/-- The peer has gone: the endpoint stays connecting, and the next call finds it connected. -/
theorem lost_peer_not_connectable :
    let r := scifConnFunc ⟨0,0,[],false,0,[],0,0,0⟩
      (connectStart (fun _ => none) ⟨boundEp,.idle⟩ 1 false true).2.1.ep
    r.1 = -enodev ∧ r.2.state = .connecting ∧ ¬ Connectable ⟨r.2,.zero⟩ ∧
      (connectStart (fun _ => none) ⟨r.2,.zero⟩ 1 false true).1 = -eisconn := by
  refine ⟨rfl,rfl,?_,rfl⟩
  exact fun h => nomatch h.bound

end Mpss.Proofs.ConnectRetry
