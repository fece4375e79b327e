import Mpss.Proofs.VnetExact

namespace Mpss.Proofs.VnetAccounted
open Library.Bytes Library.Runs Vnet.VethDma VnetLink VnetExact List Function

variable {β : Type} {s t : Net β} {a : Node β} {x : Bool}

/-- A node that has messages will look at them. -/
def Due (a : Node β) : Prop := a.ring ≠ [] → a.bh = true

def Served (s : Net β) : Prop := ∀ x,Due (s x)

/-- Where the host sends a message it gets the power reference, or the bottom half of the card is
queued anyway. -/
def Signalled (s : Net β) : Act β → Prop
  | .callback x ref => x = true → ref = true ∨ (s !x).bh = true
  | .message x _ ref =>
    ∀ n ring,(s x).ring = .dmaComplete n :: ring → x = true → ref = true ∨ (s !x).bh = true
  | _ => True

theorem served_of_ends (hs : Due (t x)) (hp : Due (t !x)) : Served t := by
  intro y
  cases x <;> cases y
  · exact hs
  · exact hp
  · exact hp
  · exact hs

theorem Served.alone (hs : Served s) (ha : Due (s x) → Due a) : Served (update s x a) := by
  apply served_of_ends
  · rw [update_self]
    exact ha (hs x)
  · rw [update_peer]
    exact hs !x

theorem due_sent (hok : x = true → ref = true ∨ a.bh = true) (msg : Msg β) :
    Due { a with ring := a.ring ++ [msg],bh := a.bh || !x || ref } := by
  intro _
  cases x with
  | false => simp
  | true =>
    rcases hok rfl with hr | hbh
    · simp [hr]
    · simp [hbh]

theorem Served.step (hs : Served s) (hsn : Sound s) (hok : Signalled s act)
    (h : step s act = some t) : Served t := by
  cases act with
  | xmit x alloc =>
    cases h
    apply hs.alone
    intro hd
    unfold micvnetXmit
    split
    all_goals exact hd
  | schedule x o =>
    obtain ⟨a,ha,rfl⟩ := Option.map_eq_some_iff.mp h
    apply hs.alone
    intro hd
    obtain ⟨skb,txSkb,-,rfl | ⟨dnode,dmaBuf,-,-,rfl⟩⟩ := schedule_cases ha
    all_goals exact hd
  | completion x around =>
    obtain ⟨snode,engine,-,hsl,hpr⟩ := completion_ends h
    apply served_of_ends
    · rw [hsl]
      exact hs x
    · rw [hpr]
      exact hs !x
  | callback x ref =>
    obtain ⟨snode,schedSkb,-,-,hsl,hpr⟩ := callback_ends h
    apply served_of_ends
    · rw [hsl]
      exact hs x
    · rw [hpr]
      exact due_sent hok _
  | message x alloc ref =>
    have hin := hsn !x
    rw [Bool.not_not] at hin
    obtain ⟨hbh,⟨buf,ring,hr,rfl⟩ | ⟨n,ring,posted,hr,hp,hrc⟩⟩ := message_cases hin h
    · apply hs.alone
      intro hd
      unfold recvAddDmaBuffer
      split
      all_goals exact fun _ => hbh
    · have hf : (update s x { s x with ring := ring } x).rxSkb = n.buf :: posted := by
        rw [update_self]
        exact hp
      obtain ⟨buf,hpr,hsl⟩ := recvDmaComplete_ends hf hrc
      simp only [update_self,update_peer] at hpr hsl
      apply served_of_ends
      · rcases hsl with ⟨-,hsl⟩ | ⟨-,hsl⟩
        all_goals
          rw [hsl]
          exact fun _ => hbh
      · rw [hpr]
        exact due_sent (hok n ring hr) _
  | handled x =>
    obtain ⟨he,h⟩ := Option.ite_none_right_eq_some.mp h
    cases h
    apply hs.alone
    intro _ hne
    exact absurd (isEmpty_iff.mp he.2) hne

/-- The other stack was given some of the packets that `x` accepted, in order and with their bytes,
after their transfer. -/
structure Exact (s : Net β) (x : Bool) : Prop where
  order : (s !x).delivered.Sublist ((s x).accepted.map tag)
  finished : ∀ q ∈ (s !x).delivered,∃ n ∈ (s x).complete,tag n.skb = q
  assigned : ∀ n ∈ (s x).engine,n.buf ∈ (s !x).rxSkb
  inside : ∀ n ∈ (s x).engine ++ (s x).complete,
    n.buf.phys ≤ n.dmaDst ∧ n.dmaDst + n.dmaSize ≤ n.buf.phys + n.buf.size

/-- Every packet that `x` was asked to send was delivered or counted, and nothing else was
counted. -/
structure Accounted (s : Net β) (x : Bool) : Prop where
  fates : (↑((s x).accepted.map tag) : Multiset (Nat × List β)) =
    ↑(s !x).delivered + ↑((s x).lostTx.map tag) + ↑((s !x).lostRx.map tag)
  txDropped : (s x).txDropped = (s x).lostTx.length + (s x).refused
  rxDropped : (s !x).rxDropped = (s !x).lostRx.length

/-- No work item is queued or running on either node, and no transfer is. -/
def Idle (s : Net β) : Prop := ∀ x,(s x).txSkb = [] ∧ (s x).engine = [] ∧ (s x).cntDmaComplete = 0 ∧
    (s x).bh = false

theorem exact_of_sound (hs : Sound s) (x : Bool) : Exact s x where
  order := (sublist_append_left _ _).trans (hs x).inStep.order
  finished := (hs x).inStep.finished
  assigned := by
    intro n hn
    have hl : (s !x).rxSkb = _ := (hs x).inStep.lists
    have hf : n ∈ (linkOf (s x) (s !x)).flying := hn
    rw [hl]
    apply mem_append_left
    apply mem_append_left
    exact mem_map_of_mem (mem_append_right _ hf)
  inside := by
    intro n hn
    have hft : Fits n := by
      apply (hs x).inStep.fits
      rcases mem_append.mp hn with hf | hc
      · exact mem_append_left _ (mem_append_right _ hf)
      · exact mem_append_right _ hc
    obtain ⟨hlw,hh,-,-,-⟩ := hft.place
    exact ⟨hlw,hh⟩

theorem accounted_of_idle (hs : Sound s) (hsr : Served s) (hi : Idle s) : Accounted s x := by
  obtain ⟨htx,he,hc,-⟩ := hi x
  obtain ⟨-,-,-,hbh⟩ := hi !x
  have hr : (s !x).ring = [] := by
    by_contra hne
    rw [hsr _ hne] at hbh
    cases hbh
  have hu : (linkOf (s x) (s !x)).underway = [] := by simp [Link.underway,linkOf,hr,hc,he,htx]
  refine ⟨?_,(hs x).txDropped,(hs x).rxDropped⟩
  have hf := (hs x).inStep.fates
  rw [hu,map_nil,Multiset.coe_nil,add_zero] at hf
  exact hf

theorem linkup_served : Served (linkup bufs mem) := fun _ _ => rfl

/-- Packets arrive exact, in order and at most once; where every message is signalled, none is
missing uncounted when both nodes are idle. -/
theorem packets_exact {bufs : Bool → List Buf} {mem : Bool → Memory β}
    (hapart : ∀ x,(bufs x).Pairwise Buf.Apart) (hroom : ∀ x,(bufs x).length ≤ VNET_MAX_SKBS)
    (hrun : exec step (linkup bufs mem) acts = some s) :
    (∀ x,Exact s x) ∧
      (Along step Signalled (linkup bufs mem) acts → Idle s → ∀ x,Accounted s x) := by
  have hst := linkup_sound mem hapart hroom
  have hsn : Sound s :=
    exec_invariant (fun _ _ _ hs _ hsp => hs.step hsp) hst
      (Along.always (fun _ _ => trivial) _ acts) hrun
  refine ⟨exact_of_sound hsn,?_⟩
  intro ha hi x
  have hb : Sound s ∧ Served s := by
    apply exec_invariant _ ⟨hst,linkup_served⟩ ha hrun
    intro u act v hu hok hsp
    exact ⟨hu.1.step hsp,hu.2.step hu.1 hok hsp⟩
  exact accounted_of_idle hsn hb.2 hi

def oneBuf : Bool → List Buf := fun _ => [⟨1000,300⟩]

def zeros : Bool → Memory Nat := fun _ _ => 0

def learn : List (Act Nat) :=
  [.message true none true,.handled true,.message false none true,.handled false]

def send (ref : Bool) : List (Act Nat) :=
  [.xmit true 5 [7,8,9] true,.schedule true ⟨true,true,true,true⟩,.completion true
    (fun _ => 0),.callback true ref]

def receive : List (Act Nat) :=
  [.message false (some (5000,100)) true,.handled false,.message true none true,.handled true]

theorem packet_delivered_exact : ∃ s :
    Net Nat,exec step (linkup oneBuf zeros) (learn ++ send true ++ receive) = some s ∧
    (s false).delivered = [(0,[7,8,9])] ∧ ∀ x,Exact s x ∧ Accounted s x := by
  have hap : ∀ x,(oneBuf x).Pairwise Buf.Apart := fun _ => pairwise_singleton _ _
  have hr : ∀ x,(oneBuf x).length ≤ VNET_MAX_SKBS := by decide
  have hal : Along step Signalled (linkup oneBuf zeros) (learn ++ send true ++ receive) :=
    .cons (fun _ _ _ _ => .inl rfl) rfl <| .cons trivial rfl <| .cons (fun _ _ _ _ => .inl rfl) rfl <|
      .cons trivial rfl <| .cons trivial rfl <| .cons trivial rfl <| .cons trivial rfl <|
      .cons (fun _ => .inl rfl) rfl <| .cons (fun _ _ _ _ => .inl rfl) rfl <| .cons trivial rfl <|
      .cons (fun _ _ _ _ => .inl rfl) rfl <| .cons trivial rfl trivial
  obtain ⟨he,ha⟩ := packets_exact hap hr
    (rfl : exec step (linkup oneBuf zeros) (learn ++ send true ++ receive) = some _)
  have hi := ha hal (fun x => by cases x <;> exact ⟨rfl,rfl,rfl,rfl⟩)
  exact ⟨_,rfl,rfl,fun x => ⟨he x,hi x⟩⟩

/-- The host gets no reference: both nodes are idle, and the packet is neither delivered nor
counted. -/
theorem unsignalled_packet_lost : ∃ s :
    Net Nat,exec step (linkup oneBuf zeros) (learn ++ send false) = some s ∧
    Idle s ∧ (s true).accepted.length = 1 ∧ (s false).delivered = [] ∧ (s true).txDropped = 0 ∧
    (s false).rxDropped = 0 := by
  refine ⟨_,rfl,?_,rfl,rfl,rfl,rfl⟩
  intro x
  cases x
  all_goals exact ⟨rfl,rfl,rfl,rfl⟩

end Mpss.Proofs.VnetAccounted
