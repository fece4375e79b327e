import Mpss.Cosm.ScifServer

namespace Mpss.Proofs.MessagesWhole
open Cosm.ScifServer List

/-- A message as the card's driver sends them: a state, or a heartbeat that is zero behind its
id. -/
structure Message where
  bytes : List UInt8
  size : bytes.length = msgSize
  sent : bytes.take 8 = STATE_CHANGE ∨ bytes.take 8 = HEARTBEAT ∧ bytes.getD 8 0 = 0

def acts (ms : List Message) : List (List UInt8 × UInt8) := ms.map (fun m => idState m.bytes)

def sizes (es : List Event) : List Nat := es.filterMap (fun | .recv rc => some rc | .call _ => none)

/-- The calls in which the bytes of `n` messages come. -/
structure Reading (n : Nat) where
  events : List Event
  msg : ∀ m,.call m ∈ events → m.length = msgSize
  part : ∀ rc ∈ sizes events,0 < rc ∧ rc ≤ msgSize
  all : (sizes events).sum = msgSize * n
  last : Option End
  poll : last = none ∨ last = some .hangUp ∨ last = some .heartbeat

/-- The host acts on the messages in order, on all of them unless it has ended the connection for a
state that is an error. -/
def Right (ms : List Message) (s : Server) : Prop :=
  ∃ rest,acts ms = s.acted ++ rest ∧ s.ended ≠ some .sendTime ∧
    if s.ended = some .received then s.acted.getLast? = some (STATE_CHANGE,MIC_STATE_ERROR)
      else rest = []

theorem step_ended (h : s.ended.isSome) (es : List Event) : es.foldl step s = s := by
  induction es with
  | nil => rfl
  | cons e es ih => rw [foldl_cons,step.eq_def,if_pos h,ih]

theorem run_count (hs : s.ended = none) (es : List Event) : (es.foldl step s).ended = some .received
    ∨ (es.foldl step s).ended = none ∧ (es.foldl step s).acted.length = s.acted.length +
    (sizes es).length := by
  induction es generalizing s with
  | nil => exact .inr ⟨hs,rfl⟩
  | cons e es ih =>
    rw [foldl_cons]
    cases e with
    | call m => simpa [step,hs,sizes] using ih (s := { s with msg := m }) hs
    | recv rc =>
      by_cases hx : (idState (s.stream.take rc ++ s.msg.drop rc)).2 = MIC_STATE_ERROR
      · rw [step_ended (by simp [step,hs,hx])]
        simp [step,hs,hx]
      · simpa [step,hs,hx,sizes,Nat.add_assoc,Nat.add_comm 1] using ih (s := step s (.recv rc))
          (by simp [step,hs,hx])

theorem sum_full {l : List Nat} (h : ∀ k ∈ l,k ≤ n) :
    l.sum ≤ n * l.length ∧ (l.sum = n * l.length → ∀ k ∈ l,k = n) := by
  induction l with
  | nil => simp
  | cons a l ih =>
    simp only [forall_mem_cons,sum_cons,length_cons,Nat.mul_succ] at h ⊢
    obtain ⟨hl,hf⟩ := ih h.2
    exact ⟨by omega,fun hs => ⟨by omega,hf (by omega)⟩⟩

theorem run_whole (hm : s.msg.length ≤ msgSize) (hc : ∀ m,.call m ∈ es → m.length ≤ msgSize)
    (hw : ∀ rc ∈ sizes es,rc = msgSize) (hl : (sizes es).length = later.length)
    (hs : s.stream = later.flatMap Message.bytes) (he : s.ended = none) :
    ∃ rest,s.acted ++ acts later = (es.foldl step s).acted ++ rest ∧
      ((es.foldl step s).ended = none ∧ rest = [] ∨ (es.foldl step s).ended = some .received ∧
        (es.foldl step s).acted.getLast? = some (STATE_CHANGE,MIC_STATE_ERROR)) := by
  induction es generalizing s later with
  | nil =>
    obtain rfl : later = [] := by simpa [sizes] using hl.symm
    exact ⟨[],rfl,.inl ⟨he,rfl⟩⟩
  | cons e es ih =>
    have hc' := fun m hm => hc m (.tail _ hm)
    rw [foldl_cons]
    cases e with
    | call m =>
      rw [show step s (.call m) = { s with msg := m } by simp [step,he]]
      exact ih (s := { s with msg := m }) (hc m mem_cons_self) hc' hw hl hs he
    | recv rc =>
      obtain _ | ⟨m,later⟩ := later
      · simp [sizes] at hl
      obtain ⟨rfl,hw'⟩ := forall_mem_cons.mp hw
      have hr : step s (.recv msgSize) = ⟨later.flatMap Message.bytes,m.bytes,s.acted ++
        [idState m.bytes],
          if (idState m.bytes).2 = MIC_STATE_ERROR then some .received else none⟩ := by
        simp [step,he,hs,take_left' m.size,drop_left' m.size,drop_of_length_le hm]
      rw [hr]
      split_ifs with hx
      · rw [step_ended (by simp)]
        obtain hsc | ⟨-,h0⟩ := m.sent
        · exact ⟨acts later,by simp [acts],.inr ⟨rfl,by simp [← hx,← hsc,idState]⟩⟩
        · exact absurd (h0.symm.trans hx) (by decide)
      · have ih := ih (s := ⟨later.flatMap Message.bytes,m.bytes,s.acted ++ [idState m.bytes],none⟩)
          m.size.le hc' hw' (Nat.succ.inj hl) rfl rfl
        simpa [acts] using ih

def heartbeat : Message := ⟨HEARTBEAT ++ replicate 16 0,rfl,.inr ⟨rfl,rfl⟩⟩

/-- A part of a message is taken for a message. -/
theorem messages_whole_iff (n : Nat) (time : Bool) (r : Reading n) :
      (∀ ms : List Message,ms.length = n →
      Right ms (cosmScifWork time (ms.flatMap Message.bytes) r.events r.last)) ↔
    time = true ∧ ∀ rc ∈ sizes r.events,rc = msgSize := by
  constructor
  · intro h
    obtain ⟨rest,ha,ht,hr⟩ := h (replicate n heartbeat) (length_replicate)
    cases time with
    | false => exact absurd (by simp [cosmScifWork,step_ended]) ht
    | true =>
      obtain he | ⟨he,hc⟩ := run_count (s := ⟨(replicate n heartbeat).flatMap Message.bytes,[],[],
        none⟩) rfl r.events
      · have hl : (STATE_CHANGE,MIC_STATE_ERROR) ∈ acts (replicate n heartbeat) := by
          rw [ha]
          exact mem_append_left _ (mem_of_getLast? (by simpa [cosmScifWork,he] using hr))
        simp [acts,heartbeat,idState,STATE_CHANGE,HEARTBEAT] at hl
      · have hr : rest = [] := by
          obtain h | h | h := r.poll <;> simpa [cosmScifWork,he,h] using hr
        have hn : n = (sizes r.events).length := by
          have := congrArg length ha
          simpa [hr,acts,cosmScifWork,hc] using this
        exact ⟨rfl,(sum_full (fun rc h => (r.part rc h).2)).2 (hn ▸ r.all)⟩
  · rintro ⟨rfl,hw⟩ ms rfl
    have hl : (sizes r.events).length = ms.length := by
      have := r.all
      rw [eq_replicate_of_mem hw,sum_replicate_nat,Nat.mul_comm] at this
      exact Nat.eq_of_mul_eq_mul_left (by decide) this
    obtain ⟨rest,ha,hr⟩ := run_whole (s := ⟨ms.flatMap Message.bytes,[],[],none⟩) (Nat.zero_le _)
      (fun m hm => (r.msg m hm).le) hw hl rfl rfl
    refine ⟨rest,ha,?_⟩
    simp only [cosmScifWork,if_true]
    obtain ⟨he,rfl⟩ | ⟨he,hx⟩ := hr
    · obtain h | h | h := r.poll <;> simp [he,h]
    · simp [he,hx]

/-- A heartbeat comes in two parts. -/
def halves : Reading 1 :=
  ⟨[.call (replicate 24 0),.recv 16,.recv 8],by simp [msgSize],by simp [sizes,msgSize],rfl,none,.inl rfl⟩

theorem halves_taken_for_messages :
    ¬ Right [heartbeat] (cosmScifWork true ([heartbeat].flatMap Message.bytes) halves.events
    halves.last) := by
  rintro ⟨rest,h,-⟩
  have hl := congrArg length h
  rw [length_append] at hl
  exact absurd hl (Nat.ne_of_lt (Nat.lt_add_right _ (by decide)))

end Mpss.Proofs.MessagesWhole
