import Mpss.Proofs.LinkLines

namespace Mpss.Proofs.LinkSteps
open Vnet.LinkPeriod VnetLink VnetExact LinkLines List Function Option
open Vnet.VethDma (Buf Packet SchedNode Msg Node Outcomes VNET_MAX_SKBS micvnetScheduleDma)

variable {s t : Period β} {p q p' : Port β} {a b : Node β}

theorem refuse_out (h : Good a b) : Good (refuse a) b :=
  { h with
    inStep := h.inStep
    txDropped := by
      have hd := h.txDropped
      simp only [refuse]
      omega }

theorem refuse_in (h : Good b a) : Good b (refuse a) := { h with }

theorem free_idle (h : p.free host = true) :
    p.work = .idle ∧ (host = false → ∀ rnode,p.start ≠ .announcing rnode) := by
  unfold Port.free at h
  split at h
  · rename_i hw hs
    refine ⟨hw,?_⟩
    rintro rfl
    cases h
  · rename_i hw hs
    exact ⟨hw,fun _ rnode => hs rnode⟩
  · cases h

theorem owed_le (h : Fine p) : owed p ≤ p.node.cntDmaBufAvail := by
  unfold owed
  split
  · rename_i hq
    exact Nat.one_le_iff_ne_zero.mpr (h.credit (by simp [hq]))
  · exact Nat.zero_le _

theorem schedule_flat (hc : owed p ≤ p.node.cntDmaBufAvail) (host : Bool) (o : Outcomes) :
    micvnetScheduleDma host (flat p) o =
      (micvnetScheduleDma host p.node o).map fun node => flat { p with node := node } := by
  have hb : p.node.cntDmaBufAvail - owed p + 1 = p.node.cntDmaBufAvail + 1 - owed p := by omega
  unfold micvnetScheduleDma
  cases htx : p.node.txSkb with
  | nil => simp [flat,htx]
  | cons skb txSkb =>
    simp only [flat,htx]
    by_cases hr : host ∧ ¬ o.ref
    · rw [if_pos hr,if_pos hr,map_some,hb]
      rfl
    rw [if_neg hr,if_neg hr]
    cases hbf : p.node.dmaBuf with
    | nil => rfl
    | cons dnode dmaBuf =>
      simp only
      split
      · rw [map_some,hb]
        rfl
      split
      · rw [map_some,hb]
        rfl
      · rfl

theorem pool_free (h : Fine p) (hb : p.node.dmaBuf.length = k + 1) (hk : k < VNET_MAX_SKBS) :
    ∃ dnodes,listObjFree p.dnodes = some dnodes ∧ dnodes.head = (dnodes.tail + k) % ObjList.size ∧
      dnodes.tail < ObjList.size := by
  have hp := h.pool
  unfold ObjList.size at *
  have hne : p.dnodes.tail ≠ p.dnodes.head := by
    unfold VNET_MAX_SKBS at *
    omega
  refine ⟨_,if_neg hne,?_,Nat.mod_lt _ (Nat.succ_pos _)⟩
  unfold ObjList.size VNET_MAX_SKBS at *
  simp only
  omega

theorem pool_alloc (h : Fine p) (hr : p.node.dmaBuf.length < VNET_MAX_SKBS) :
    ∃ dnodes,listObjAlloc p.dnodes = some dnodes ∧
      dnodes.head = (dnodes.tail + (p.node.dmaBuf.length + 1)) % ObjList.size ∧
      dnodes.tail < ObjList.size := by
  have hp := h.pool
  have ht := h.tail
  unfold ObjList.size at *
  have hne : (p.dnodes.head + 1) % (VNET_MAX_SKBS + 1) ≠ p.dnodes.tail := by
    unfold VNET_MAX_SKBS at *
    omega
  refine ⟨_,if_neg hne,?_,ht⟩
  unfold ObjList.size VNET_MAX_SKBS at *
  simp only
  omega

section
variable (h : Lines s)
include h

theorem xmit_enter (hs : xmitEnter (s x) alloc = some p) : Lines (update s x p) := by
  unfold xmitEnter at hs
  split at hs
  · rename_i ho
    obtain ⟨hsl,hp⟩ := h.ends x
    have hf := hsl.fine
    split_ifs at hs with hc
    · cases hs
      exact h.own [] (refuse_out hsl.good) (refuse_in hp.good) rfl rfl rfl
        { hf with credit := hf.credit } hsl.calm
    · cases hs
      exact h.unseen (by simp [flat,held,posted,owed,ho]) [] rfl rfl rfl
        { hf with credit := fun _ hz => hc (.inl hz) } hsl.calm
  · cases hs

theorem xmit_queue (hs : xmitQueue (s x) data bytes = some p) : Lines (update s x p) := by
  unfold xmitQueue at hs
  split at hs
  · rename_i hc
    obtain ⟨hsl,hp⟩ := h.ends x
    split at hs
    · cases hs
      have hf : flat { s x with node := refuse (s x).node,xmit := .out } = refuse (flat (s x)) := by
        simp [flat,held,posted,owed,hc,refuse]
      exact h.own [] (hf ▸ refuse_out hsl.good) (hf ▸ refuse_in hp.good) rfl rfl rfl
        { hsl.fine with credit := fun ho => absurd rfl ho } hsl.calm
    cases hs
    have hcr : (s x).node.cntDmaBufAvail ≠ 0 := hsl.fine.credit (by simp [hc])
    have hl : (linkOf (flat (s x)) (flat (s !x))).credits ≠ 0 := by
      simpa [linkOf,flat,owed,hc] using hcr
    have hg := hsl.good
    have hin := hp.good
    have ha := hg.inStep.accept hl ⟨(s x).node.accepted.length,data,bytes⟩
    refine h.own [] ?_ { hin with } rfl rfl rfl
      { hsl.fine with sched := by simp,credit := fun _ => hcr } hsl.calm
    exact { hg with inStep := by simpa [linkOf,flat,held,posted,owed,hc] using ha }
  · cases hs

theorem xmit_leave (hs : xmitLeave (s x) = some p) : Lines (update s x p) := by
  unfold xmitLeave at hs
  split at hs
  · rename_i hq
    cases hs
    exact h.unseen (by simp [flat,held,posted,owed,hq]) [] rfl rfl rfl
      { (h x).fine with credit := fun ho => absurd rfl ho } (h x).calm
  · cases hs

theorem schedule_next (hs : scheduleNext (s x) x = some p) : Lines (update s x p) := by
  obtain ⟨hr,hs⟩ := ite_none_right_eq_some.mp hs
  obtain ⟨hw,-⟩ := free_idle hr.1
  cases hs
  refine h.unseen (by simp [flat,held,posted,owed,hw]) [] rfl rfl rfl
    { (h x).fine with sched := fun _ => hr.2 } ?_
  intro _ n rnode hh
  cases hh

theorem schedule_dma (hst : scheduleDma (s x) x o = some p) : Lines (update s x p) := by
  obtain ⟨hsl,hp⟩ := h.ends x
  have hf := hsl.fine
  unfold scheduleDma at hst
  split at hst
  · rename_i hw
    obtain ⟨a,ha⟩ := hsl.good.schedule_goes (hf.sched hw) x o
    have hfl := schedule_flat (owed_le hf) x o
    rw [ha] at hfl
    obtain ⟨node,hn,rfl⟩ := map_eq_some_iff.mp hfl.symm
    have ho := hsl.good.schedule ha
    have hin := hp.good.schedule_peer ha
    simp only [hn] at hst
    have hv : ∀ dnodes,
        flat { s x with work := .idle,node := node,dnodes := dnodes } = flat
        { s x with node := node } := by
      intro dnodes
      simp [flat,held,posted,owed,hw]
    have hln : ∀ dnodes,Fine { s x with work := .idle,node := node,dnodes := dnodes } →
        Lines (update s x { s x with work := .idle,node := node,dnodes := dnodes }) := by
      intro dnodes hnw
      refine h.own [] ?_ ?_ rfl rfl rfl hnw (fun _ n rnode hh => by cases hh)
      · rw [hv]
        exact ho
      · rw [hv]
        exact hin
    obtain ⟨skb,txSkb,htx,rfl | ⟨dnode,dmaBuf,hb,-,rfl⟩⟩ := schedule_cases hn
    · rw [if_pos rfl] at hst
      cases hst
      apply hln
      exact { hf with
        sched := fun hs => by cases hs
        credit := fun _ => Nat.succ_ne_zero _ }
    · have hl : (s x).node.dmaBuf.length = dmaBuf.length + 1 := by rw [hb,length_cons]
      have hr : dmaBuf.length < VNET_MAX_SKBS := by
        have hk := hsl.known_le
        omega
      obtain ⟨dnodes,hfr,hpl,ht⟩ := pool_free hf hl hr
      rw [if_neg (by simp [hl]),hfr] at hst
      cases hst
      apply hln
      exact { hf with
        pool := hpl
        tail := ht
        sched := fun hs => by cases hs }
  · cases hst

theorem completion_lines (hs : completion s x around = some t) : Lines t := by
  obtain ⟨hsl,hp⟩ := h.ends x
  unfold completion at hs
  split at hs
  · cases hs
  rename_i snode engine he
  cases hs
  have ho := hsl.good.completion (n := snode) he around
  have hin := hp.good
  apply lines_of_ends
  · rw [update_self,update_peer,update_self,update_back]
    have hf := hsl.fine
    exact { hsl with good := ho,fine := { hf with sched := hf.sched,credit := hf.credit } }
  · rw [update_self,update_peer,update_self,update_back]
    have hf := hp.fine
    exact { hp with
      good := { hin with }
      fine := { hf with sched := hf.sched,credit := hf.credit } }

theorem callback_lines (hst : callback s x ref = some t) : Lines t := by
  obtain ⟨hsl,hp⟩ := h.ends x
  obtain ⟨hr,hst⟩ := ite_none_left_eq_some.mp hst
  split at hst
  · cases hst
  rename_i snode schedSkb hs
  cases hst
  have hc : (s x).node.cntDmaComplete ≠ 0 := fun hz => hr (.inr hz)
  have hf := hsl.fine
  have hin := hp.good
  refine h.tell ?_ ?_ rfl rfl { hf with sched := hf.sched,credit := hf.credit } hsl.calm
  · intro bh
    rw [flat_sent_complete]
    exact hsl.good.callback (n := snode) hc hs _
  · intro bh
    rw [flat_sent_complete]
    have hsn := hin.sent_complete (n := snode) bh
    exact { hsn with }

end

theorem startAt_posted (hs : (s x).start = .before) :
    posted { s x with start := startAt (s x).node.rxSkb } = posted (s x) := by
  unfold posted
  rw [hs]
  cases (s x).node.rxSkb with
  | nil | cons rnode rxSkb => simp [startAt]

theorem begun_startAt : begun (startAt l) = true := by
  cases l with
  | nil | cons b l => rfl

theorem startAt_mem (h : startAt l = .announcing rnode) : rnode ∈ l := by
  cases l with
  | nil => cases h
  | cons b l =>
    cases h
    exact mem_cons_self

theorem process_message (h : Lines s) (hsp : processMessage (s x) x = some p) :
    Lines (update s x p) := by
  obtain ⟨hsl,hpr⟩ := h.ends x
  have hfn := hsl.fine
  obtain ⟨hr,hsp⟩ := ite_none_left_eq_some.mp hsp
  have hfr : (s x).free x = true := by
    by_contra hbusy
    exact hr (.inl hbusy)
  obtain ⟨hw,hcr⟩ := free_idle hfr
  split at hsp
  · cases hsp
  rename_i frame frames hf
  split at hsp
  · rename_i buf
    have hri : (flat (s x)).ring = .addDmaBuffer buf :: traffic frames := by simp [flat,held,hw,hf]
    obtain ⟨hrm,hot⟩ := hsl.good.learn hri
    obtain ⟨dnodes,ha,hpl,ht⟩ := pool_alloc hfn hrm
    have hc : (s x).node.cntDmaBufAvail + 1 - owed (s x) = (s x).node.cntDmaBufAvail - owed
      (s x) + 1 := by
      have ho := owed_le hfn
      omega
    simp only [recvAddDmaBuffer,ha] at hsp
    cases hsp
    have hfl : flat { s x with
        frames := frames,dnodes := dnodes
        node := { (s x).node with
          dmaBuf := (s x).node.dmaBuf ++ [buf],cntDmaBufAvail := (s x).node.cntDmaBufAvail + 1 } } =
        { flat (s x) with
          ring := traffic frames,dmaBuf := (s x).node.dmaBuf ++ [buf],
          cntDmaBufAvail := (s x).node.cntDmaBufAvail - owed (s x) + 1 } := by
      rw [← hc]
      simp [flat,held,posted,owed,hw]
    refine h.own [_] ?_ ?_ hf rfl rfl ?_ hsl.calm
    · rw [hfl]
      exact hot
    · rw [hfl]
      exact hpr.good.learn_peer hri _ _
    · exact { hfn with
        pool := by simpa using hpl
        tail := ht
        credit := fun _ => Nat.succ_ne_zero _ }
  · rename_i snode
    cases hsp
    exact h.unseen (by simp [flat,held,posted,owed,hw,hf]) [_] hf rfl rfl
      { hfn with sched := fun hs => by cases hs } (fun hx _ rnode _ => hcr hx rnode)
  · obtain ⟨hx,hb,hst,hu⟩ := hpr.up_read hf
    cases x with
    | true => cases hx
    | false =>
      simp only [Bool.false_eq_true,if_false] at hsp
      cases hsp
      have hp := startAt_posted hst
      have hfl : flat { s false with frames := frames,start := startAt (s false).node.rxSkb } = flat
        (s false) := by
        have hrx : posted { s false with frames := frames,start := startAt (s false).node.rxSkb } =
          posted (s false) :=
          hp
        simp only [flat,hrx]
        simp [held,owed,hw,hf]
      apply h.alone
      · intro hl
        exact { hl with
          good := by
            rw [hfl]
            exact hl.good
          fine := { hfn with walk := fun rnode hrn => startAt_mem hrn }
          ups := hl.ups
          first := fun hx => by cases hx
          calm := fun _ n rnode hh => by
            rw [hw] at hh
            cases hh }
      · intro hl
        exact {
          good := by
            rw [hfl]
            exact hl.good
          fine := hl.fine
          downs := by
            have hd := hl.downs
            rw [hf,countP_cons] at hd
            simp only
            omega
          once := hl.once
          ups := by simpa [begun_startAt] using hu
          first := fun _ _ => hb
          calm := hl.calm }
  · cases hsp
    exact h.unseen (by simp [flat,held,posted,owed,hw,hf]) [_] hf rfl rfl
      { hfn with credit := hfn.credit } hsl.calm

theorem handled_done (hin : Line (!x) q p) (hw : p.work = .handling n)
    (hwl : ∀ rnode,p.start ≠ .announcing rnode) :
    p.start = .done ∧ Fits n ∧ ∃ rest,p.node.rxSkb = n.buf :: rest := by
  have hrn : (flat p).ring = .dmaComplete n :: traffic p.frames := by simp [flat,held,hw]
  obtain ⟨-,hf,rest,hr⟩ := hin.good.first hrn
  have hd : p.start = .done := by
    cases hs : p.start with
    | before => simp [flat,posted,hs] at hr
    | announcing rnode => exact absurd hs (hwl rnode)
    | done => rfl
  refine ⟨hd,hf,rest,?_⟩
  simpa [flat,posted,hd] using hr

/-- The node with other buffers and another account of what it has received. -/
def rebuffer (p : Port β) (rxSkb : List Buf) (rxDropped : Nat) (delivered : List (Nat × List β))
    (lostRx : List (Packet β)) : Port β :=
  { p with
    work := .idle
    node := { p.node with rxSkb := rxSkb,rxDropped := rxDropped,delivered := delivered,lostRx := lostRx } }

theorem flat_rebuffer (hd : p.start = .done) (rxSkb : List Buf) (rxDropped : Nat)
    (delivered : List (Nat × List β)) (lostRx : List (Packet β)) :
    flat (rebuffer p rxSkb rxDropped delivered lostRx) =
      { flat p with
        ring := traffic p.frames,rxSkb := rxSkb,rxDropped := rxDropped,delivered := delivered,
        lostRx := lostRx } := by simp [flat,rebuffer,held,posted,owed,hd]

theorem fine_rebuffer (h : Fine p) (hd : p.start = .done) (ha : rxSkb.Pairwise Buf.Apart)
    (hrl : ∀ b ∈ rxSkb,0 < b.size) (hrm : rxSkb.length ≤ VNET_MAX_SKBS) :
    Fine (rebuffer p rxSkb rxDropped delivered lostRx) :=
  { h with
    apart := ha
    real := hrl
    room := hrm
    walk := by
      intro rnode hr
      cases hd.symm.trans hr
    sched := fun hs => by cases hs }

theorem append_fine {b : Buf} (ha : rest.Pairwise Buf.Apart)
    (hr : ∀ d ∈ rest,0 < d.size) (hb : 0 < b.size) (hf : ∀ d ∈ rest,d.Apart b) :
    (rest ++ [b]).Pairwise Buf.Apart ∧ ∀ d ∈ rest ++ [b],0 < d.size := by
  refine ⟨?_,?_⟩
  · rw [pairwise_append]
    refine ⟨ha,pairwise_singleton _ _,?_⟩
    intro d hd c hc
    rw [mem_singleton.mp hc]
    exact hf d hd
  · exact forall_mem_append.mpr ⟨hr,forall_mem_singleton.mpr hb⟩

theorem repost_lines {b : Buf} (h : Lines s) (hdn : (s x).start = .done)
    (hw : (s x).work = .handling n)
    (hrx : (s x).node.rxSkb = n.buf :: rest) (hrl : 0 < b.size) (hf : ∀ d ∈ rest,d.Apart b)
    (hin : Good (flat (s !x)) { flat (s x) with
      ring := traffic (s x).frames,rxSkb := rest,rxDropped := rxDropped,delivered :=
        delivered,lostRx := lostRx })
    (ref : Bool) :
    Lines (sendMsg (update s x (rebuffer (s x) (rest ++ [b]) rxDropped delivered lostRx)) x
      (.traffic (.addDmaBuffer b)) ref) := by
  obtain ⟨hsl,hp⟩ := h.ends x
  have hfn := hsl.fine
  have hrn : (flat (s x)).ring = .dmaComplete n :: traffic (s x).frames := by simp [flat,held,hw]
  have ha := hfn.apart
  have hr := hfn.room
  have hs := hfn.real
  rw [hrx] at ha hr hs
  obtain ⟨ha',hs'⟩ := append_fine (pairwise_cons.mp ha).2 (forall_mem_cons.mp hs).2 hrl hf
  refine h.tell ?_ ?_ rfl rfl (fine_rebuffer hfn hdn ha' hs' (by simpa using hr)) ?_
  · intro bh
    rw [flat_rebuffer hdn,flat_sent_add]
    exact (hsl.good.complete_peer hrn _ _ _ _).sent_add _ _
  · intro bh
    rw [flat_rebuffer hdn,flat_sent_add]
    exact hin.announce hr hf _
  · intro _ n rnode hh
    cases hh

theorem recv_dma_complete (h : Lines s) (hhs : x = true → (s x).start = .done)
    (hs : recvDmaComplete s x alloc ref = some t) : Lines t := by
  obtain ⟨hsl,hpr⟩ := h.ends x
  have hfn := hsl.fine
  unfold recvDmaComplete at hs
  split at hs
  · rename_i snode hw
    have hwl : ∀ rnode,(s x).start ≠ .announcing rnode := by
      intro rnode ha
      cases x with
      | false => exact hsl.calm rfl snode rnode hw ha
      | true => cases (hhs rfl).symm.trans ha
    obtain ⟨hdn,hft,rest,hrx⟩ := handled_done hpr hw hwl
    obtain ⟨-,-,ho,-,-⟩ := hft.place
    have hr : (flat (s x)).ring = .dmaComplete snode :: traffic (s x).frames := by simp [flat,held,hw]
    have hp : (flat (s x)).rxSkb = snode.buf :: rest := by simp [flat,posted,hdn,hrx]
    have hap := hfn.apart
    have hrm := hfn.room
    have hrl := hfn.real
    rw [hrx] at hap hrm hrl
    obtain ⟨hf,hap⟩ := pairwise_cons.mp hap
    simp only [hrx] at hs
    rw [if_neg (not_not_intro ⟨rfl,hft.room,ho⟩)] at hs
    split at hs
    · cases hs
      have hfl := flat_rebuffer hdn rest (s x).node.rxDropped
        ((s x).node.delivered ++ [(snode.skb.id,Vnet.VethDma.received (s x).node.mem snode.buf snode)])
        (s x).node.lostRx
      refine h.own [] (hfl ▸ hsl.good.complete_peer hr _ _ _ _)
        (hfl ▸ hpr.good.deliver hr hp) rfl rfl rfl ?_ (fun _ n rnode hh => by cases hh)
      exact fine_rebuffer hfn hdn hap (forall_mem_cons.mp hrl).2 (Nat.le_of_succ_le hrm)
    · split at hs
      · cases hs
        exact repost_lines h hdn hw hrx (hrl _ mem_cons_self) (fun d hd => (hf d hd).symm)
          (hpr.good.drop hr hp) ref
      · obtain ⟨hfr,hs⟩ := ite_none_right_eq_some.mp hs
        cases hs
        exact repost_lines h hdn hw hrx (Nat.lt_of_lt_of_le (Nat.succ_pos _) (Nat.le_add_left _ _))
          (forall_mem_cons.mp hfr).2 (hpr.good.deliver hr hp) ref
  · cases hs

end Mpss.Proofs.LinkSteps
