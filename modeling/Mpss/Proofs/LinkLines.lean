import Mpss.Proofs.VnetExact
import Mpss.Vnet.LinkPeriod

namespace Mpss.Proofs.LinkLines
open Vnet.LinkPeriod VnetExact List Function Bool
open Vnet.VethDma (Buf Packet SchedNode Msg Node Outcomes VNET_MAX_SKBS micvnetScheduleDma)

variable {β : Type} {s t : Period β} {p q p' q' : Port β} {n : SchedNode β} {x : Bool} {msg : Msg β}

def traffic : List (Frame β) → List (Msg β) := List.filterMap fun
  | .traffic msg => some msg
  | _ => none

def isUp : Frame β → Bool
  | .linkUp => true
  | _ => false

def isDown : Frame β → Bool
  | .linkDown => true
  | _ => false

@[simp] theorem traffic_append : traffic (l ++ r) = traffic l ++ traffic r := filterMap_append

@[simp] theorem traffic_cons_traffic : traffic (.traffic msg :: l) = msg :: traffic l := rfl

@[simp] theorem traffic_cons_up : traffic (.linkUp :: l) = traffic l := rfl

@[simp] theorem traffic_cons_down : traffic (.linkDown :: l) = traffic l := rfl

@[simp] theorem traffic_nil : traffic ([] : List (Frame β)) = [] := rfl

def held (p : Port β) : List (Msg β) :=
  match p.work with
  | .handling snode => [.dmaComplete snode]
  | _ => []

/-- The buffers that the other node has been told of. -/
def posted (p : Port β) : List Buf :=
  match p.start with
  | .before => []
  | .announcing rnode => p.node.rxSkb.takeWhile fun b => b.phys ≠ rnode.phys
  | .done => p.node.rxSkb

/-- What `micvnet_xmit` has still to take from the counter. -/
def owed (p : Port β) : Nat :=
  match p.xmit with
  | .queued => 1
  | _ => 0

/-- The node as the link sees it: a message being handled is still in the ring, a packet in the list
has been counted, and a buffer not announced is not there. -/
def flat (p : Port β) : Node β :=
  { p.node with
    ring := held p ++ traffic p.frames
    rxSkb := posted p
    cntDmaBufAvail := p.node.cntDmaBufAvail - owed p }

def begun : Start → Bool
  | .before => false
  | _ => true

/-- What holds of one node by itself. -/
structure Fine (p : Port β) : Prop where
  apart : p.node.rxSkb.Pairwise Buf.Apart
  real : ∀ b ∈ p.node.rxSkb,0 < b.size
  room : p.node.rxSkb.length ≤ VNET_MAX_SKBS
  walk : ∀ rnode,p.start = .announcing rnode → rnode ∈ p.node.rxSkb
  pool : p.dnodes.head = (p.dnodes.tail + p.node.dmaBuf.length) % ObjList.size
  tail : p.dnodes.tail < ObjList.size
  sched : p.work = .scheduling → p.node.txSkb ≠ []
  credit : p.xmit ≠ .out → p.node.cntDmaBufAvail ≠ 0
  faults : p.faults = []

/-- What holds of the direction from `p`, which is the host where `x` is true, to `q`. -/
structure Line (x : Bool) (p q : Port β) : Prop where
  good : Good (flat p) (flat q)
  fine : Fine p
  downs : q.frames.countP isDown + p.linkDownQueued.toNat + p.waiting + p.passed ≤ p.stops
  once : p.stops ≤ 1
  ups : q.frames.countP isUp = if x && begun p.start && !begun q.start then 1 else 0
  first : x = true → begun q.start = true → begun p.start = true
  calm : x = false → ∀ n rnode,p.work = .handling n → p.start ≠ .announcing rnode

def Lines (s : Period β) : Prop := ∀ x,Line x (s x) (s !x)

theorem lines_of_ends (ho : Line x (t x) (t !x)) (hin : Line (!x) (t !x) (t x)) : Lines t := by
  intro y
  cases x <;> cases y
  · exact ho
  · exact hin
  · exact hin
  · exact ho

theorem Lines.ends (h : Lines s) (x : Bool) : Line x (s x) (s !x) ∧ Line (!x) (s !x) (s x) := by
  have hin := h !x
  rw [Bool.not_not] at hin
  exact ⟨h x,hin⟩

theorem frames_split :
    l.length = (completes (traffic l)).length + (adds (traffic l)).length + l.countP isUp +
    l.countP isDown := by
  induction l with
  | nil => rfl
  | cons frame l ih =>
    cases frame with
    | linkUp =>
      simp only [length_cons,traffic_cons_up,countP_cons,isUp,isDown,if_true]
      simp
      omega
    | linkDown =>
      simp only [length_cons,traffic_cons_down,countP_cons,isUp,isDown,if_true]
      simp
      omega
    | traffic msg =>
      cases msg with
      | addDmaBuffer buf =>
        simp only [length_cons,traffic_cons_traffic,completes_cons_add,adds_cons_add,
          countP_cons,isUp,isDown]
        simp
        omega
      | dmaComplete snode =>
        simp only [length_cons,traffic_cons_traffic,completes_cons_complete,adds_cons_complete,
          countP_cons,isUp,isDown]
        simp
        omega

theorem Line.completes_le (h : Line x p q) :
    (completes (traffic q.frames)).length ≤ (posted q).length := by
  have hl := congrArg length h.good.inStep.lists
  simp only [linkOf,flat,completes_append,length_append,length_map] at hl
  omega

theorem Line.adds_le (h : Line x q p) : (adds (traffic q.frames)).length ≤ (posted p).length := by
  have hl := congrArg length h.good.inStep.lists
  simp only [linkOf,flat,adds_append,length_append,length_map] at hl
  omega

theorem Line.known_le (h : Line x p q) : p.node.dmaBuf.length ≤ VNET_MAX_SKBS := by
  have hl := congrArg length h.good.inStep.lists
  have hr := h.good.inStep.room
  simp only [linkOf,flat,length_append] at hl hr
  omega

theorem Line.posted_le (h : Line x p q) : (posted q).length ≤ VNET_MAX_SKBS := h.good.inStep.room

/-- A message of the other node is there for a buffer, one of the two that start and end the period
apart. -/
theorem Line.ring_bound (hot : Line x p q) (hin : Line (!x) q p) :
    q.frames.length ≤ 2 * VNET_MAX_SKBS + 1 := by
  have hc := hot.completes_le
  have ha := hin.adds_le
  have hp := hot.posted_le
  have hp' := hin.posted_le
  have hd := hot.downs
  have ho := hot.once
  have hu := hot.ups
  rw [frames_split]
  split_ifs at hu with hup
  · have hs : begun q.start = false := by simpa using (and_eq_true_iff.mp hup).2
    have hn : posted q = [] := by
      unfold posted
      cases hq : q.start with
      | before => rfl
      | announcing rnode | done =>
        rw [hq] at hs
        cases hs
    rw [hn,length_nil] at hc
    unfold VNET_MAX_SKBS at *
    omega
  · omega

def sent (q : Port β) (frame : Frame β) (bh : Bool) : Port β :=
  { q with frames := q.frames ++ [frame],node := { q.node with bh := bh } }

theorem sendMsg_ends (hr : (s !x).frames.length ≤ 2 * VNET_MAX_SKBS + 1) :
    sendMsg s x frame ref x = s x ∧
      sendMsg s x frame ref (!x) = sent (s !x) frame ((s !x).node.bh || !x || ref) := by
  have hf : (s !x).frames.length + 1 ≠ MICVNET_MSG_RB_SIZE := by
    unfold VNET_MAX_SKBS at hr
    unfold MICVNET_MSG_RB_SIZE
    omega
  unfold sendMsg
  rw [if_neg hf]
  refine ⟨?_,?_⟩
  · cases x <;> rfl
  · rw [update_self]
    rfl

theorem flat_sent_add :
    flat (sent q (.traffic (.addDmaBuffer buf)) bh) =
      { flat q with ring := (flat q).ring ++ [.addDmaBuffer buf],bh := bh } := by
  simp [flat,sent,held,posted,owed]

theorem flat_sent_complete :
    flat (sent q (.traffic (.dmaComplete n)) bh) =
      { flat q with ring := (flat q).ring ++ [.dmaComplete n],bh := bh } := by
  simp [flat,sent,held,posted,owed]

theorem flat_sent_up :
    flat (sent q .linkUp bh) = { flat q with bh := bh } := by simp [flat,sent,held,posted,owed]

theorem flat_sent_down : flat (sent q .linkDown bh) = { flat q with bh := bh } := by
  simp [flat,sent,held,posted,owed]

theorem Fine.sent (h : Fine q) (frame : Frame β) (bh : Bool) : Fine (sent q frame bh) := { h with }

theorem Lines.alone (h : Lines s) (ho : Line x (s x) (s !x) → Line x p (s !x))
    (hin : Line (!x) (s !x) (s x) → Line (!x) (s !x) p) : Lines (update s x p) := by
  obtain ⟨hs,hp⟩ := h.ends x
  apply lines_of_ends
  · rw [update_self,update_peer]
    exact ho hs
  · rw [update_self,update_peer]
    exact hin hp

/-- What a step of a thread leaves alone, beside the frames. -/
def marks (p : Port β) : Bool × Bool × Nat × Nat × Nat :=
  (begun p.start,p.linkDownQueued,p.waiting,p.passed,p.stops)

def Calm (x : Bool) (p : Port β) : Prop := x = false → ∀ n rnode,p.work = .handling n →
    p.start ≠ .announcing rnode

/-- A direction depends on what the two nodes share, the marks of one and the frames and the start
of the other. -/
theorem Line.renewed (h : Line x p q) (hg : Good (flat p') (flat q')) (hfn : Fine p')
    (hm : marks p' = marks p)
    (hd : q'.frames.countP isDown ≤ q.frames.countP isDown)
    (hu : q'.frames.countP isUp = q.frames.countP isUp)
    (hb : begun q'.start = begun q.start) (hcl : Calm x p') : Line x p' q' := by
  simp only [marks,Prod.mk.injEq] at hm
  obtain ⟨hs,hq,hw,hp,hst⟩ := hm
  exact {
    good := hg
    fine := hfn
    downs := by
      rw [hq,hw,hp,hst]
      have hdn := h.downs
      omega
    once := hst ▸ h.once
    ups := by rw [hu,hs,hb,h.ups]
    first := by
      rw [hs,hb]
      exact h.first
    calm := hcl }

theorem Lines.own (h : Lines s) (pre : List (Frame β)) (ho : Good (flat p) (flat (s !x)))
    (hin : Good (flat (s !x)) (flat p)) (hf : (s x).frames = pre ++ p.frames)
    (hup : pre.countP isUp = 0)
    (hm : marks p = marks (s x)) (hfn : Fine p) (hcl : Calm x p) : Lines (update s x p) := by
  apply h.alone
  · intro hs
    exact hs.renewed ho hfn hm le_rfl rfl rfl hcl
  · intro hp
    exact hp.renewed hin hp.fine rfl (by simp [hf]) (by simp [hf,hup]) (congrArg Prod.fst hm) hp.calm

theorem Lines.unseen (h : Lines s) (hfl : flat p = flat (s x)) (pre : List (Frame β))
    (hf : (s x).frames = pre ++ p.frames) (hup : pre.countP isUp = 0) (hm : marks p = marks (s x))
    (hfn : Fine p)
    (hcl : Calm x p) : Lines (update s x p) := by
  obtain ⟨hs,hp⟩ := h.ends x
  exact h.own pre (hfl ▸ hs.good) (hfl ▸ hp.good) hf hup hm hfn hcl

theorem Lines.send (h : Lines s) (ho : ∀ bh,Line x p (sent (s !x) frame bh))
    (hin : ∀ bh,Line (!x) (sent (s !x) frame bh) p) : Lines (sendMsg (update s x p) x frame ref) := by
  obtain ⟨hs,hp⟩ := h.ends x
  have hr := hs.ring_bound hp
  rw [← update_peer s x p] at hr
  obtain ⟨hx,hy⟩ := sendMsg_ends hr
  apply lines_of_ends
  · rw [hx,hy,update_self,update_peer]
    exact ho _
  · rw [hx,hy,update_self,update_peer]
    exact hin _

theorem Lines.tell (h : Lines s) (ho : ∀ bh,Good (flat p) (flat (sent (s !x) (.traffic msg) bh)))
    (hin : ∀ bh,Good (flat (sent (s !x) (.traffic msg) bh)) (flat p)) (hf : p.frames = (s x).frames)
    (hm : marks p = marks (s x)) (hfn : Fine p) (hcl : Calm x p) :
    Lines (sendMsg (update s x p) x (.traffic msg) ref) := by
  obtain ⟨hs,hp⟩ := h.ends x
  apply h.send
  · intro bh
    exact hs.renewed (ho bh) hfn hm (by simp [sent,isDown]) (by simp [sent,isUp]) rfl hcl
  · intro bh
    exact hp.renewed (hin bh) (hp.fine.sent _ bh) rfl (by rw [hf]) (by rw [hf])
      (congrArg Prod.fst hm) hp.calm

/-- Only the host says that it is up, once, to a card that has not announced its buffers. -/
theorem Line.up_read (h : Line x q p) (hf : p.frames = .linkUp :: frames) :
    x = true ∧ begun q.start = true ∧ p.start = .before ∧ frames.countP isUp = 0 := by
  have hu := h.ups
  rw [hf,countP_cons_of_pos rfl] at hu
  split at hu
  · rename_i hc
    simp only [and_eq_true,not_eq_true'] at hc
    obtain ⟨⟨hx,hbg⟩,hb⟩ := hc
    refine ⟨hx,hbg,?_,Nat.succ.inj hu⟩
    cases hs : p.start with
    | before => rfl
    | announcing rnode | done =>
      rw [hs] at hb
      cases hb
  · cases hu

end Mpss.Proofs.LinkLines
