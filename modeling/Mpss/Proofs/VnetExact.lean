import Mpss.Library.Runs
import Mpss.Proofs.VnetLink

namespace Mpss.Proofs.VnetExact
open Library.Bytes Vnet.VethDma VnetLink List Function Option

variable {β : Type} {s t : Net β} {a b : Node β} {n : SchedNode β} {x : Bool}

def completes : List (Msg β) → List (SchedNode β) := List.filterMap fun
  | .dmaComplete snode => some snode
  | .addDmaBuffer _ => none

def adds : List (Msg β) → List Buf := List.filterMap fun
  | .dmaComplete _ => none
  | .addDmaBuffer buf => some buf

@[simp] theorem completes_cons_complete :
    completes (.dmaComplete n :: ring) = n :: completes ring := rfl

@[simp] theorem completes_cons_add : completes (.addDmaBuffer buf :: ring) = completes ring := rfl

@[simp] theorem adds_cons_complete : adds (.dmaComplete n :: ring) = adds ring := rfl

@[simp] theorem adds_cons_add : adds (.addDmaBuffer buf :: ring) = buf :: adds ring := rfl

@[simp] theorem completes_append : completes (r ++ q) = completes r ++ completes q := filterMap_append

@[simp] theorem adds_append : adds (r ++ q) = adds r ++ adds q := filterMap_append

@[simp] theorem completes_nil : completes ([] : List (Msg β)) = [] := rfl

@[simp] theorem adds_nil : adds ([] : List (Msg β)) = [] := rfl

def linkOf (a b : Node β) : Link β where
  posted := b.rxSkb
  landed := completes b.ring ++ a.schedSkb.take a.cntDmaComplete
  flying := a.engine
  known := a.dmaBuf
  announced := adds a.ring
  waiting := a.txSkb
  credits := a.cntDmaBufAvail
  mem := b.mem
  accepted := a.accepted
  delivered := b.delivered
  lostTx := a.lostTx
  lostRx := b.lostRx
  complete := a.complete

/-- The direction from `a` to `b`: the link is in step, the transfers under way are the last
scheduled, and the counters count what was dropped. -/
structure Good (a b : Node β) : Prop where
  inStep : InStep (linkOf a b)
  engine : a.engine = a.schedSkb.drop a.cntDmaComplete
  count : a.cntDmaComplete ≤ a.schedSkb.length
  txDropped : a.txDropped = a.lostTx.length + a.refused
  rxDropped : b.rxDropped = b.lostRx.length

def Sound (s : Net β) : Prop := ∀ x,Good (s x) (s !x)

theorem sound_of_ends (ho : Good (t x) (t !x)) (hin : Good (t !x) (t x)) : Sound t := by
  intro y
  cases x <;> cases y
  · exact ho
  · exact hin
  · exact hin
  · exact ho

@[simp] theorem update_peer (s : Bool → α) (x : Bool) (a : α) :
    update s x a (!x) = s !x := by cases x <;> rfl

@[simp] theorem update_back {α : Type} (s : Bool → α) (x : Bool) (a : α) :
    update s (!x) a x = s x := by
  cases x <;> rfl

theorem Sound.alone (hs : Sound s) (x : Bool) (ho : Good (s x) (s !x) → Good a (s !x))
    (hin : Good (s !x) (s x) → Good (s !x) a) : Sound (update s x a) := by
  have hb := hs (!x)
  rw [Bool.not_not] at hb
  apply sound_of_ends
  · rw [update_self,update_peer]
    exact ho (hs x)
  · rw [update_self,update_peer]
    exact hin hb

theorem linkup_sound (mem : Bool → Memory β)
    (ha : ∀ x,(bufs x).Pairwise Buf.Apart) (hr : ∀ x,(bufs x).length ≤ VNET_MAX_SKBS) :
    Sound (linkup bufs mem) := by
  intro x
  refine ⟨?_,rfl,le_rfl,rfl,rfl⟩
  have had : ∀ l : List Buf,adds (l.map (Msg.addDmaBuffer (β := β))) = l := by
    intro l
    induction l with
    | nil => rfl
    | cons b l ih => simp [ih]
  have hc : ∀ l : List Buf,completes (l.map (Msg.addDmaBuffer (β := β))) = [] := by
    intro l
    induction l with
    | nil => rfl
    | cons b l ih => simp [ih]
  have hl : linkOf (linkup bufs mem x) (linkup bufs mem !x) =
      ⟨bufs !x,[],[],[],bufs !x,[],0,mem !x,[],[],[],[],[]⟩ := by simp [linkOf,linkup,had,hc]
  rw [hl]
  exact .start (ha _) (hr _)

theorem Good.xmit (h : Good a b) : Good (micvnetXmit a data bytes alloc) b := by
  unfold micvnetXmit
  split_ifs with hok
  · exact { h with
      inStep := h.inStep
      txDropped := by
        have hd := h.txDropped
        simp only
        omega }
  · exact { h with inStep := h.inStep.accept (fun hz => hok (.inl hz)) _ }

theorem Good.xmit_peer (h : Good b a) : Good b (micvnetXmit a data bytes alloc) := by
  unfold micvnetXmit
  split
  all_goals exact { h with }

theorem schedule_cases (h : micvnetScheduleDma host a o = some a') :
    ∃ skb txSkb,a.txSkb = skb :: txSkb ∧
      (a' = { a with
          txSkb := txSkb,cntDmaBufAvail := a.cntDmaBufAvail + 1,txDropped := a.txDropped + 1,
          lostTx := a.lostTx ++ [skb] } ∨
        ∃ dnode dmaBuf,a.dmaBuf = dnode :: dmaBuf ∧ skb.bytes.length + 3 * DMA_ALIGNMENT ≤
          dnode.size ∧ a' = { a with
            txSkb := txSkb,dmaBuf := dmaBuf,schedSkb := a.schedSkb ++ [schedNode skb dnode],
            engine := a.engine ++ [schedNode skb dnode] }) := by
  unfold micvnetScheduleDma at h
  split at h
  · cases h
  rename_i skb txSkb htx
  refine ⟨skb,txSkb,htx,?_⟩
  split at h
  · exact .inl (some.inj h).symm
  split at h
  · cases h
  rename_i dnode dmaBuf hb
  split at h
  · exact .inl (some.inj h).symm
  rename_i hs
  split at h
  · exact .inl (some.inj h).symm
  · exact .inr ⟨dnode,dmaBuf,hb,Nat.not_lt.mp hs,(some.inj h).symm⟩

theorem Good.schedule_peer (h : Good b a) (hs : micvnetScheduleDma host a o = some a') :
    Good b a' := by
  obtain ⟨skb,txSkb,-,rfl | ⟨dnode,dmaBuf,-,-,rfl⟩⟩ := schedule_cases hs
  all_goals exact { h with }

theorem completion_ends (h : dmaCompletion s x around = some t) :
    ∃ snode engine,(s x).engine = snode :: engine ∧
      t x = { s x with
        engine := engine,cntDmaComplete := (s x).cntDmaComplete + 1,complete :=
          (s x).complete ++ [snode] } ∧
      t (!x) = { s (!x) with mem := snode.dma around (s !x).mem } := by
  unfold dmaCompletion at h
  split at h
  · cases h
  · rename_i snode engine he
    cases h
    refine ⟨snode,engine,he,?_,?_⟩
    all_goals simp

theorem callback_ends (h : micvnetDmaCbBh s x ref = some t) :
    ∃ snode schedSkb,(s x).cntDmaComplete ≠ 0 ∧ (s x).schedSkb = snode :: schedSkb ∧
      t x = { s x with schedSkb := schedSkb,cntDmaComplete := (s x).cntDmaComplete - 1 } ∧
      t (!x) = { s (!x) with
        ring := (s !x).ring ++ [.dmaComplete snode],bh := (s !x).bh || !x || ref } := by
  obtain ⟨hc,h⟩ := ite_none_left_eq_some.mp h
  split at h
  · cases h
  · rename_i snode schedSkb hs
    cases h
    refine ⟨snode,schedSkb,hc,hs,?_,?_⟩
    all_goals simp [sendMsg]

theorem Good.sent_complete (h : Good b a) (bh : Bool) :
    Good { b with ring := b.ring ++ [.dmaComplete n],bh := bh } a :=
  { h with inStep := by simpa [linkOf] using h.inStep }

section
variable (h : Good a b)
include h

theorem Good.schedule (hs : micvnetScheduleDma host a o = some a') : Good a' b := by
  obtain ⟨skb,txSkb,htx,rfl | ⟨dnode,dmaBuf,hb,hsz,rfl⟩⟩ := schedule_cases hs
  · exact { h with
      inStep := h.inStep.fail htx
      txDropped := by
        have hd := h.txDropped
        simp only [length_append,length_singleton]
        omega }
  · have hl : linkOf { a with
          txSkb := txSkb,dmaBuf := dmaBuf,schedSkb := a.schedSkb ++ [schedNode skb dnode],
          engine := a.engine ++ [schedNode skb dnode] } b =
        { linkOf a b with
          waiting := txSkb,known := dmaBuf,flying := a.engine ++ [schedNode skb dnode] } := by
      simp [linkOf,take_append_of_le_length h.count]
    exact { h with
      inStep := by
        rw [hl]
        exact h.inStep.submit htx hb hsz
      engine := by simp [drop_append_of_le_length h.count,h.engine]
      count := by
        have hc := h.count
        simp only [length_append]
        omega }

/-- `BUG_ON` does not stop `micvnet_schedule_dma`: each packet that waits has a buffer. -/
theorem Good.schedule_goes (htx : a.txSkb ≠ []) (host : Bool) (o : Outcomes) :
    ∃ a',micvnetScheduleDma host a o = some a' := by
  obtain ⟨skb,txSkb,hs⟩ := exists_cons_of_ne_nil htx
  have hc := h.inStep.credits
  have hb : a.dmaBuf ≠ [] := by
    intro hn
    simp [linkOf,hs,hn] at hc
  obtain ⟨dnode,dmaBuf,hd⟩ := exists_cons_of_ne_nil hb
  unfold micvnetScheduleDma
  simp only [hs,hd]
  split
  · exact ⟨_,rfl⟩
  split
  · exact ⟨_,rfl⟩
  split
  all_goals exact ⟨_,rfl⟩

theorem Good.completion (he : a.engine = n :: flying) (around : Nat → β) :
    Good { a with engine := flying,cntDmaComplete := a.cntDmaComplete + 1,complete := a.complete ++
      [n] } { b with mem := n.dma around b.mem } := by
  obtain ⟨done,hd,hl⟩ :
      ∃ done,a.schedSkb = done ++ n :: flying ∧ done.length = a.cntDmaComplete := by
    refine ⟨a.schedSkb.take a.cntDmaComplete,?_,length_take_of_le h.count⟩
    rw [← he,h.engine,take_append_drop]
  have hln := h.inStep.land he around
  exact { h with
    inStep := by simpa [linkOf,hd,← hl,take_append,take_of_length_le (Nat.le_succ _)] using hln
    engine := by simp [hd,← hl,drop_append]
    count := by simp [hd,← hl] }

theorem Good.callback (hc : a.cntDmaComplete ≠ 0) (hs : a.schedSkb = n :: schedSkb) (bh : Bool) :
    Good { a with schedSkb := schedSkb,cntDmaComplete := a.cntDmaComplete - 1 }
      { b with ring := b.ring ++ [.dmaComplete n],bh := bh } := by
  obtain ⟨k,hk⟩ := Nat.exists_eq_succ_of_ne_zero hc
  have hin := h.inStep
  have he := h.engine
  have hle := h.count
  simp only [linkOf,hs,hk,take_succ_cons,drop_succ_cons,length_cons] at hin he hle
  exact { h with
    inStep := by simpa [linkOf,hk] using hin
    engine := by simpa [hk] using he
    count := by
      simp only [hk]
      omega }

theorem Good.sent_add (buf : Buf) (bh : Bool) :
    Good a { b with ring := b.ring ++ [.addDmaBuffer buf],bh := bh } :=
  { h with inStep := by simpa [linkOf] using h.inStep }

theorem Good.learn (hr : a.ring = .addDmaBuffer buf :: ring) :
    a.dmaBuf.length < VNET_MAX_SKBS ∧
      Good { a with
        ring := ring,dmaBuf := a.dmaBuf ++ [buf],cntDmaBufAvail := a.cntDmaBufAvail + 1 } b := by
  have ha : (linkOf a b).announced = buf :: adds ring := by simp [linkOf,hr]
  refine ⟨?_,{ h with inStep := h.inStep.learn ha }⟩
  have hl := congrArg length h.inStep.lists
  have hp := h.inStep.room
  simp only [length_append,ha,length_cons] at hl
  simp only [linkOf] at hl hp
  omega

theorem Good.add (hr : a.ring = .addDmaBuffer buf :: ring) :
    Good (recvAddDmaBuffer { a with ring := ring } buf) b := by
  obtain ⟨hrm,hg⟩ := h.learn hr
  unfold recvAddDmaBuffer
  rw [if_neg (not_le.mpr hrm)]
  exact hg

end

theorem Good.learn_peer (h : Good b a) (hr : a.ring = .addDmaBuffer buf :: ring) (dmaBuf : List Buf)
    (cntDmaBufAvail : Nat) :
    Good b { a with ring := ring,dmaBuf := dmaBuf,cntDmaBufAvail := cntDmaBufAvail } := by
  have hin := h.inStep
  simp only [linkOf,hr,completes_cons_add] at hin
  exact { h with inStep := hin }

theorem Good.add_peer (h : Good b a) (hr : a.ring = .addDmaBuffer buf :: ring) :
    Good b (recvAddDmaBuffer { a with ring := ring } buf) := by
  unfold recvAddDmaBuffer
  split
  all_goals exact h.learn_peer hr _ _

theorem Good.complete_peer (h : Good a b) (hr : a.ring = .dmaComplete n :: ring) (rxSkb : List Buf)
    (rxDropped : Nat) (delivered : List (Nat × List β)) (lostRx : List (Packet β)) :
    Good { a with
      ring := ring,rxSkb := rxSkb,rxDropped := rxDropped,delivered := delivered,lostRx := lostRx } b :=
  { h with
    inStep := by
      have hin := h.inStep
      simpa only [linkOf,hr,adds_cons_complete] using hin }

section
variable {ring : List (Msg β)} (h : Good b a) (hr : a.ring = .dmaComplete n :: ring)
include h hr

/-- The transfer that a message announces went into the first buffer of the list. -/
theorem Good.first :
    (linkOf b a).landed = n :: (completes ring ++ b.schedSkb.take b.cntDmaComplete) ∧ Fits n ∧
      ∃ posted,a.rxSkb = n.buf :: posted := by
  have hl : (linkOf b a).landed = n :: (completes ring ++
    b.schedSkb.take b.cntDmaComplete) := by simp [linkOf,hr]
  obtain ⟨posted,hp,-⟩ := h.inStep.first hl
  exact ⟨hl,h.inStep.fits n (by simp [hl]),posted,hp⟩

theorem Good.deliver (hp : a.rxSkb = n.buf :: posted) :
    Good b { a with
      ring := ring,rxSkb := posted,delivered := a.delivered ++ [(n.skb.id,received a.mem n.buf n)] } :=
  { h with
    inStep := by
      obtain ⟨hl,-,-⟩ := h.first hr
      exact h.inStep.deliver hl hp }

theorem Good.drop (hp : a.rxSkb = n.buf :: posted) :
    Good b { a with
      ring := ring,rxSkb := posted,rxDropped := a.rxDropped + 1,lostRx := a.lostRx ++ [n.skb] } :=
  { h with
    inStep := by
      obtain ⟨hl,-,-⟩ := h.first hr
      exact h.inStep.drop hl hp
    rxDropped := by simp [h.rxDropped] }

end

theorem Good.announce (h : Good b a) (hr : a.rxSkb.length < VNET_MAX_SKBS)
    (hf : ∀ d ∈ a.rxSkb,d.Apart fresh) (bh : Bool) :
    Good { b with ring := b.ring ++ [.addDmaBuffer fresh],bh := bh }
    { a with rxSkb := a.rxSkb ++ [fresh] } :=
  { h with
    inStep := by
      have ha := h.inStep.announce hr hf
      simpa [linkOf] using ha }

@[simp] theorem post_self :
    post s x rxSkb rnode ref x = { s x with rxSkb := rxSkb ++ [rnode] } := by simp [post,sendMsg]

@[simp] theorem post_peer :
    post s x rxSkb rnode ref (!x) =
      { s (!x) with ring := (s !x).ring ++ [.addDmaBuffer rnode],bh := (s !x).bh || !x || ref } := by
  simp [post,sendMsg]

theorem handleOooMsg_first (hf : Fits n) (hp : (s x).rxSkb = n.buf :: posted) :
    handleOooMsg s x n ref = (s,true) := by
  obtain ⟨-,-,ho,-,-⟩ := hf.place
  unfold handleOooMsg
  rw [hp]
  exact if_pos ⟨rfl,hf.room,ho⟩

theorem recvDmaComplete_ends (hp : (s x).rxSkb = n.buf :: posted)
    (h : recvDmaComplete s x n alloc ref = some t) :
    ∃ buf,t (!x) = { s (!x) with
      ring := (s !x).ring ++ [.addDmaBuffer buf],bh := (s !x).bh || !x || ref } ∧
      (buf = n.buf ∧
          t x = { s x with
            rxSkb := posted ++ [n.buf],rxDropped := (s x).rxDropped + 1,lostRx :=
              (s x).lostRx ++ [n.skb] } ∨
        (∀ d ∈ posted,d.Apart buf) ∧
          t x = { s x with
            rxSkb := posted ++ [buf],
            delivered := (s x).delivered ++ [(n.skb.id,received (s x).mem n.buf n)] }) := by
  unfold recvDmaComplete at h
  simp only [hp] at h
  split at h
  · cases h
    refine ⟨n.buf,?_,.inl ⟨rfl,?_⟩⟩
    all_goals simp [dropRx]
  rename_i phys mtu
  obtain ⟨hf,h⟩ := ite_none_right_eq_some.mp h
  cases h
  refine ⟨⟨phys,mtu + 3 * DMA_ALIGNMENT + ETH_HLEN⟩,?_,.inr ⟨?_,?_⟩⟩
  · simp
  · intro d hd
    exact hf d (.tail _ hd)
  · simp

/-- A step of the bottom half: a buffer is learnt, or a transfer is announced that went into the
first buffer. -/
theorem message_cases (hg : Good (s !x) (s x)) (h : step s (.message x alloc ref) = some t) :
    (s x).bh = true ∧
      ((∃ buf ring,(s x).ring = .addDmaBuffer buf :: ring ∧
          t = update s x (recvAddDmaBuffer { s x with ring := ring } buf)) ∨
        ∃ n ring posted,(s x).ring = .dmaComplete n :: ring ∧ (s x).rxSkb = n.buf :: posted ∧
          recvDmaComplete (update s x { s x with ring := ring }) x n alloc ref = some t) := by
  simp only [step] at h
  split at h
  · cases h
  rename_i hbh
  refine ⟨Bool.eq_true_of_not_eq_false hbh,?_⟩
  split at h
  · cases h
  rename_i msg ring hr
  split at h
  · rename_i buf
    refine .inl ⟨buf,ring,hr,?_⟩
    simpa using h.symm
  rename_i snode
  obtain ⟨-,hft,posted,hp⟩ := hg.first hr
  have hf : (update s x { s x with ring := ring } x).rxSkb = snode.buf :: posted := by
    rw [update_self]
    exact hp
  rw [handleOooMsg_first hft hf] at h
  exact .inr ⟨snode,ring,posted,hr,hp,h⟩

theorem Sound.message (hs : Sound s) (h : step s (.message x alloc ref) = some t) : Sound t := by
  have ho := hs x
  have hin := hs (!x)
  rw [Bool.not_not] at hin
  obtain ⟨-,⟨buf,ring,hr,rfl⟩ | ⟨n,ring,posted,hr,hp,hrc⟩⟩ := message_cases hin h
  · exact hs.alone x (fun ho => ho.add hr) (fun hin => hin.add_peer hr)
  have hf : (update s x { s x with ring := ring } x).rxSkb = n.buf :: posted := by
    rw [update_self]
    exact hp
  obtain ⟨hln,-,-⟩ := hin.first hr
  obtain ⟨-,-,hl,hb⟩ := hin.inStep.behind hln hp
  obtain ⟨buf,hpr,⟨rfl,hsl⟩ | ⟨hfr,hsl⟩⟩ := recvDmaComplete_ends hf hrc
  all_goals
    simp only [update_self,update_peer] at hpr hsl
    apply sound_of_ends
    · rw [hsl,hpr]
      exact (ho.complete_peer hr _ _ _ _).sent_add _ _
    rw [hsl,hpr]
  · exact (hin.drop hr hp).announce hl hb _
  · exact (hin.deliver hr hp).announce hl hfr _

theorem Sound.step (hs : Sound s) (h : step s act = some t) : Sound t := by
  cases act with
  | xmit x alloc =>
    cases h
    exact hs.alone x (fun ho => ho.xmit) (fun hin => hin.xmit_peer)
  | schedule x o =>
    obtain ⟨a,ha,rfl⟩ := map_eq_some_iff.mp h
    exact hs.alone x (fun ho => ho.schedule ha) (fun hin => hin.schedule_peer ha)
  | completion x around =>
    obtain ⟨snode,engine,he,hsl,hp⟩ := completion_ends h
    have hin := hs (!x)
    rw [Bool.not_not] at hin
    apply sound_of_ends
    · rw [hsl,hp]
      exact (hs x).completion he around
    · rw [hsl,hp]
      exact { hin with }
  | callback x ref =>
    obtain ⟨snode,schedSkb,hc,hsc,hsl,hp⟩ := callback_ends h
    have hin := hs (!x)
    rw [Bool.not_not] at hin
    have hsn := hin.sent_complete (n := snode) ((s !x).bh || !x || ref)
    apply sound_of_ends
    · rw [hsl,hp]
      exact (hs x).callback hc hsc _
    · rw [hsl,hp]
      exact { hsn with }
  | message x alloc ref => exact hs.message h
  | handled x =>
    obtain ⟨_,h⟩ := ite_none_right_eq_some.mp h
    cases h
    apply hs.alone x
    · exact fun ho => { ho with }
    · exact fun hin => { hin with }

end Mpss.Proofs.VnetExact
