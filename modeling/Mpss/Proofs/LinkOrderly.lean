import Mpss.Proofs.LinkSteps

namespace Mpss.Proofs.LinkOrderly
open Library.Bytes Library.Runs Vnet.LinkPeriod VnetLink VnetExact LinkLines LinkSteps
  List Function Option Bool
open Vnet.VethDma (Buf Packet SchedNode Msg Node Outcomes VNET_MAX_SKBS)

variable {β : Type} {s t : Period β} {p : Port β} {x : Bool}

theorem apart_phys {b c : Buf} (h : b.Apart c) (hb : 0 < b.size) (hc : 0 < c.size) :
    b.phys ≠ c.phys := by
  rcases h with h | h <;> omega

theorem takeWhile_split {c : Buf} (h : ∀ b ∈ l,b.phys ≠ c.phys) :
    (l ++ c :: r).takeWhile (fun b => b.phys ≠ c.phys) = l := by
  have hl : ∀ b ∈ l,decide (b.phys ≠ c.phys) = true := fun b hb => decide_eq_true (h b hb)
  rw [takeWhile_append_of_pos hl]
  simp

theorem posted_next (hf : Fine p) (hst : p.start = .announcing r)
    (hd : p.node.rxSkb.dropWhile (fun b => b.phys ≠ r.phys) = rnode :: rest) :
    p.node.rxSkb = posted p ++ rnode :: rest ∧
      posted { p with start := startAt rest } = posted p ++ [rnode] := by
  have hs : p.node.rxSkb = posted p ++ rnode :: rest := by
    rw [← hd]
    simp only [posted,hst]
    exact takeWhile_append_dropWhile.symm
  refine ⟨hs,?_⟩
  cases rest with
  | nil => exact hs
  | cons next rest =>
    have ha : p.node.rxSkb = (posted p ++ [rnode]) ++ next :: rest := by
      rw [hs]
      simp
    have hap := hf.apart
    rw [ha,pairwise_append] at hap
    have hn : next ∈ p.node.rxSkb := by
      rw [ha]
      exact mem_append_right _ mem_cons_self
    show p.node.rxSkb.takeWhile (fun b => b.phys ≠ next.phys) = posted p ++ [rnode]
    rw [ha]
    apply takeWhile_split
    intro b hb
    have hm : b ∈ p.node.rxSkb := by
      rw [ha]
      exact mem_append_left _ hb
    exact apart_phys (hap.2.2 b hb next mem_cons_self) (hf.real b hm) (hf.real next hn)

theorem send_add_dma_buffer (h : Lines s) (hst : sendAddDmaBuffer s x ref = some t) : Lines t := by
  obtain ⟨hsl,hpr⟩ := h.ends x
  have hf := hsl.fine
  unfold sendAddDmaBuffer at hst
  split at hst
  · rename_i r hs
    split at hst
    · cases hst
    rename_i rnode rest hdp
    cases hst
    obtain ⟨hsp,hp⟩ := posted_next hf hs hdp
    have ha := hf.apart
    have hr := hf.room
    rw [hsp] at ha hr
    have hfl : flat { s x with start := startAt rest } =
      { flat (s x) with rxSkb := posted (s x) ++ [rnode] } := by
      simp only [flat,hp]
      rfl
    have hb : begun (startAt rest) = begun (s x).start := by
      rw [begun_startAt,hs]
      rfl
    refine h.tell ?_ ?_ rfl (by simp [marks,hb]) ?_ (fun hx n _ hh => absurd hs (hsl.calm hx n r hh))
    · intro bh
      rw [hfl,flat_sent_add]
      have hsn := hsl.good.sent_add rnode bh
      exact { hsn with }
    · intro bh
      rw [hfl,flat_sent_add]
      apply hpr.good.announce
      · show (posted (s x)).length < VNET_MAX_SKBS
        rw [length_append,length_cons] at hr
        omega
      · intro d hd
        exact (pairwise_append.mp ha).2.2 d hd rnode mem_cons_self
    · exact { hf with
        walk := by
          intro c hc
          rw [hsp]
          exact mem_append_right _ (.tail _ (startAt_mem hc)) }
  · cases hst

theorem send_link_up (h : Lines s) (hs : (s true).start = .before) (ref : Bool) :
    Lines (sendMsg (update s true { s true with start := startAt (s true).node.rxSkb }) true
    .linkUp ref) := by
  obtain ⟨hsl,hp⟩ := h.ends true
  have hf : flat { s true with start := startAt (s true).node.rxSkb } = flat (s true) := by
    simp only [flat,startAt_posted hs]
    rfl
  have hc : begun (s !true).start = false := by
    by_contra hb
    have hh := hsl.first rfl (eq_true_of_not_eq_false hb)
    rw [hs] at hh
    cases hh
  apply h.send
  · intro bh
    have hg := hsl.good
    have hu := hsl.ups
    rw [hs] at hu
    exact {
      good := by
        rw [hf,flat_sent_up]
        exact { hg with }
      fine := { hsl.fine with walk := fun rnode hr => startAt_mem hr }
      downs := by simpa [sent,isDown] using hsl.downs
      once := hsl.once
      ups := by
        have hn : (s !true).frames.countP isUp = 0 := by simpa [begun] using hu
        simp only [sent,countP_append,hn,begun_startAt,hc]
        rfl
      first := fun _ _ => begun_startAt
      calm := fun hx => by cases hx }
  · intro bh
    have hg := hp.good
    exact {
      good := by
        rw [hf,flat_sent_up]
        exact { hg with }
      fine := hp.fine.sent _ _
      downs := hp.downs
      once := hp.once
      ups := hp.ups
      first := fun hx => by cases hx
      calm := hp.calm }

theorem send_link_down (h : Lines s) (hq : (s x).linkDownQueued = true) (ref : Bool) :
    Lines (sendMsg (update s x { s x with linkDownQueued := false }) x .linkDown ref) := by
  obtain ⟨hs,hp⟩ := h.ends x
  have hg := hs.good
  have hb := hp.good
  apply h.send
  · intro bh
    exact { hs with
      good := by
        rw [flat_sent_down]
        exact { hg with }
      fine := { hs.fine with credit := hs.fine.credit }
      downs := by
        have hd := hs.downs
        rw [hq] at hd
        simp only [sent,countP_append,countP_singleton,isDown,if_true,toNat_false,toNat_true] at hd ⊢
        omega
      ups := by simpa [sent,isUp] using hs.ups }
  · intro bh
    refine hp.renewed ?_ (hp.fine.sent _ bh) rfl le_rfl rfl rfl hp.calm
    rw [flat_sent_down]
    exact { hb with }

theorem stop_lines (h : Lines s) (state : LinkState) (ho : stops ≤ 1)
    (hd : (s !x).frames.countP isDown + Bool.toNat linkDownQueued + waiting + passed ≤ stops) :
    Lines (update s x { s x with
      state := state,passed := passed,waiting := waiting,linkDownQueued := linkDownQueued,stops :=
        stops }) := by
  apply h.alone
  · intro hl
    exact { hl with fine := { hl.fine with credit := hl.fine.credit },downs := hd,once := ho }
  · intro hl
    exact hl.renewed hl.good hl.fine rfl le_rfl rfl rfl hl.calm

/-- While the host announces its buffers its work queue sends no message, and a node calls
`micvnet_execute_stop` once. -/
def Allowed (s : Period β) : Act β → Prop
  | .callback x _ | .recvDmaComplete x _ _ | .sendLinkDown x _ => x = true → (s x).start = .done
  | .stopTest x => (s x).stops = 0
  | _ => True

theorem linkup_lines (ha : ∀ x,(bufs x).Pairwise Buf.Apart)
    (hr : ∀ x,∀ b ∈ bufs x,0 < b.size) (hrm : ∀ x,(bufs x).length ≤ VNET_MAX_SKBS) :
    Lines (linkup bufs mem) := by
  intro x
  exact {
    good := ⟨InStep.start .nil (Nat.zero_le _),rfl,Nat.le_refl _,rfl,rfl⟩
    fine := {
      apart := ha x
      real := hr x
      room := hrm x
      walk := fun _ hs => by cases hs
      pool := rfl
      tail := Nat.succ_pos _
      sched := fun hw => by cases hw
      credit := fun hx => absurd rfl hx
      faults := rfl }
    downs := le_rfl
    once := Nat.zero_le _
    ups := by simp [linkup,begun]
    first := fun _ hb => hb
    calm := fun _ _ _ hw => by cases hw }

theorem Lines.step (h : Lines s) (hok : Allowed s act) (hsp : step s act = some t) : Lines t := by
  cases act with
  | sendLinkUp ref =>
    simp only [Vnet.LinkPeriod.step] at hsp
    split at hsp
    · rename_i hs
      cases hsp
      exact send_link_up h hs ref
    · cases hsp
  | sendAddDmaBuffer x ref => exact send_add_dma_buffer h hsp
  | xmitEnter x alloc =>
    obtain ⟨p,hp,rfl⟩ := map_eq_some_iff.mp hsp
    exact xmit_enter h hp
  | xmitQueue x data bytes =>
    obtain ⟨p,hp,rfl⟩ := map_eq_some_iff.mp hsp
    exact xmit_queue h hp
  | xmitLeave x =>
    obtain ⟨p,hp,rfl⟩ := map_eq_some_iff.mp hsp
    exact xmit_leave h hp
  | scheduleNext x =>
    obtain ⟨p,hp,rfl⟩ := map_eq_some_iff.mp hsp
    exact schedule_next h hp
  | scheduleDma x o =>
    obtain ⟨p,hp,rfl⟩ := map_eq_some_iff.mp hsp
    exact schedule_dma h hp
  | completion x around => exact completion_lines h hsp
  | callback x ref => exact callback_lines h hsp
  | processMessage x =>
    obtain ⟨p,hp,rfl⟩ := map_eq_some_iff.mp hsp
    exact process_message h hp
  | recvDmaComplete x alloc ref => exact recv_dma_complete h hok hsp
  | handled x =>
    refine of_guard hsp (fun _ => ?_)
    obtain ⟨hs,hp⟩ := h.ends x
    have hg := hs.good
    have hb := hp.good
    exact h.own [] { hg with } { hb with } rfl rfl rfl
      { hs.fine with credit := hs.fine.credit } hs.calm
  | stopTest x =>
    refine of_guard hsp (fun _ => ?_)
    have hst : (s x).stops = 0 := hok
    have hd := (h x).downs
    exact stop_lines h _ (by omega) (by omega)
  | stopDown x =>
    refine of_unless hsp (fun hps => ?_)
    have hd := (h x).downs
    exact stop_lines h _ (h x).once (by omega)
  | stopQueue x =>
    refine of_unless hsp (fun hw => ?_)
    have hd := (h x).downs
    refine stop_lines h _ (h x).once ?_
    simp only [toNat_true]
    omega
  | sendLinkDown x ref => exact of_guard hsp (fun hr => send_link_down h hr.2 ref)

/-- Where a buffer can be: handled by the receiver `q`, named in a message to it, assigned to a
packet of the sender `p`, known to it, or announced to it. -/
def places (p q : Port β) : List Buf :=
  (completes (held q)).map SchedNode.buf ++ (completes (traffic q.frames)).map SchedNode.buf ++
    p.node.schedSkb.map SchedNode.buf ++ p.node.dmaBuf ++ adds (traffic p.frames)

/-- Every buffer that was posted is in one place, in order, no two have an address in common, no
ring is full, and no fault was recorded. -/
structure Orderly (s : Period β) : Prop where
  places : ∀ x,posted (s !x) = places (s x) (s !x)
  distinct : ∀ x,(posted (s x)).Pairwise fun b c => b.phys ≠ c.phys
  rings : ∀ x,(s x).frames.length ≤ 2 * VNET_MAX_SKBS + 1
  faults : ∀ x,(s x).faults = []

theorem adds_held : adds (held p) = [] := by
  unfold held
  split <;> rfl

theorem posted_mem (hb : b ∈ posted p) : b ∈ p.node.rxSkb := by
  unfold posted at hb
  split at hb
  · cases hb
  · exact (takeWhile_sublist _).mem hb
  · exact hb

theorem orderly_of_lines (h : Lines s) : Orderly s where
  places := by
    intro x
    have hl := (h x).good.inStep.lists
    have he := (h x).good.engine
    simp only [linkOf,he,append_assoc,take_append_drop] at hl
    simpa [flat,places,adds_held] using hl
  distinct := by
    intro x
    have hin := (h.ends x).2.good.inStep.apart
    apply List.Pairwise.imp_of_mem _ hin
    intro b c hb hc ha
    exact apart_phys ha ((h x).fine.real b (posted_mem hb)) ((h x).fine.real c (posted_mem hc))
  rings := by
    intro x
    obtain ⟨hs,hp⟩ := h.ends x
    apply Line.ring_bound (x := !x) hp
    rw [Bool.not_not]
    exact hs
  faults := fun x => (h x).fine.faults

/-- In every period whose steps meet the condition, what should never occur does not occur. -/
theorem link_period_orderly {bufs : Bool → List Buf} {mem : Bool → Memory β}
    (hapart : ∀ x,(bufs x).Pairwise Buf.Apart) (hreal : ∀ x,∀ b ∈ bufs x,0 < b.size)
    (hroom : ∀ x,(bufs x).length ≤ VNET_MAX_SKBS) (hok : Along step Allowed (linkup bufs mem) acts)
    (hrun : exec step (linkup bufs mem) acts = some s) : Orderly s :=
  orderly_of_lines (exec_invariant (fun _ _ _ h hok hstep => Lines.step h hok hstep)
    (linkup_lines hapart hreal hroom) hok hrun)

def fewBufs : Bool → List Buf
  | true => [⟨1000,300⟩,⟨2000,300⟩]
  | false => [⟨1000,300⟩]

def zeros : Bool → Memory Nat := fun _ _ => 0

def greet : List (Act Nat) :=
  [.sendLinkUp true,.processMessage false,.sendAddDmaBuffer false true,.sendAddDmaBuffer true true,
    .processMessage false]

def cardSends : List (Act Nat) :=
  [.xmitEnter false true,.xmitQueue false 0 [7],.xmitLeave false,.scheduleNext false,
    .scheduleDma false ⟨true,true,true,true⟩,.completion false (fun _ => 0),.callback false true]

def hostStops : List (Act Nat) :=
  [.stopTest true,.stopDown true,.stopQueue true,.sendLinkDown true true]

theorem period_with_packet_orderly : ∃ s : Period Nat,
    exec step (linkup fewBufs zeros) (greet ++ [.sendAddDmaBuffer true true] ++ cardSends ++
      [.processMessage true,.processMessage true,.recvDmaComplete true (some (5000,100)) true] ++
      hostStops) = some s ∧
    (s true).node.delivered = [(0,[7])] ∧ Orderly s := by
  have ha : ∀ x,(fewBufs x).Pairwise Buf.Apart := by decide
  have hr : ∀ x,∀ b ∈ fewBufs x,0 < b.size := by
    intro x
    cases x <;> simp [fewBufs]
  have hok : Along step Allowed (linkup fewBufs zeros)
    (greet ++ [.sendAddDmaBuffer true true] ++ cardSends ++
      [.processMessage true,.processMessage true,.recvDmaComplete true (some (5000,100)) true] ++
      hostStops) := by
    iterate 11 refine .cons trivial rfl ?_
    refine .cons trivial rfl (.cons (fun hx => by cases hx) rfl ?_)
    refine .cons trivial rfl (.cons trivial rfl (.cons (fun _ => rfl) rfl ?_))
    exact .cons rfl rfl (.cons trivial rfl (.cons trivial rfl (.cons (fun _ => rfl) rfl trivial)))
  exact ⟨_,rfl,rfl,link_period_orderly ha hr (by decide) hok rfl⟩

/-- The host handles the packet while it still announces its buffers, and the new buffer is
announced twice. -/
theorem announced_twice : ∃ s t : Period Nat,
    exec step (linkup fewBufs zeros) (greet ++ cardSends ++
      [.processMessage true,.processMessage true,.recvDmaComplete true (some (5000,100)) true,
        .sendAddDmaBuffer true true,.sendAddDmaBuffer true true]) = some s ∧
    (adds (traffic (s false).frames)).map Buf.phys = [5000,2000,5000] ∧
    exec step s ([.processMessage false] ++ cardSends ++
      [.processMessage true,.recvDmaComplete true none true]) = some t ∧
    (t true).faults = [.oooMsg] :=
  ⟨_,_,rfl,rfl,rfl,rfl⟩

end Mpss.Proofs.LinkOrderly
