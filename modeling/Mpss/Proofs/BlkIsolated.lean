import Mathlib.Algebra.Order.Group.Multiset
import Mpss.Library.Runs
import Mpss.Proofs.BlkMerge

namespace Mpss.Proofs.BlkIsolated
open Library.Runs Vhost.MicBlk BlkMerge List Option

variable {file : Nat → φ} {s t : State φ} {chain : Chain}

/-- Every request that was handed over waits in a queue, or in one work item, or is completed:
once. -/
structure Accounted (s : State φ) : Prop where
  once : (s.readQueue ++ s.writeQueue ++ s.works.flatMap Work.entries ++
    s.completed.map Completion.req).Perm s.handed
  numbered : s.handed.map Vbio.seq = List.range s.handed.length

def places (s : State φ) : Multiset (Vbio φ) :=
  ↑s.readQueue + ↑s.writeQueue + ↑(s.works.flatMap Work.entries) + ↑(s.completed.map Completion.req)

theorem accounted_iff : Accounted s ↔ places s = ↑s.handed ∧ s.handed.map Vbio.seq =
    List.range s.handed.length := by
  have hp : (s.readQueue ++ s.writeQueue ++ s.works.flatMap Work.entries ++
      s.completed.map Completion.req).Perm
      s.handed ↔ places s = ↑s.handed := by simp [places,Multiset.coe_add]
  exact ⟨fun h => ⟨hp.mp h.once,h.numbered⟩,fun h => ⟨hp.mpr h.1,h.2⟩⟩

theorem insert_places : (↑(insertToQueue v queue) : Multiset (Vbio φ)) = {v} + ↑queue := by
  rw [Multiset.coe_eq_coe.mpr (insertToQueue_perm),Multiset.singleton_add]
  rfl

theorem Accounted.handed (h : Accounted s) (hs : v.seq = s.handed.length)
    (hp : places t = {v} + places s) (hh : t.handed = s.handed ++ [v]) : Accounted t := by
  obtain ⟨hat,hn⟩ := accounted_iff.mp h
  apply accounted_iff.mpr
  rw [hp,hat,hh]
  refine ⟨?_,?_⟩
  · rw [← Multiset.coe_add,add_comm]
    rfl
  · rw [map_append,hn,length_append,length_singleton,range_succ,map_singleton,hs]

theorem Accounted.handoff (h : Accounted s) (hs : v.seq = s.handed.length) :
    Accounted (handoffIo s v) := by
  unfold handoffIo
  split
  · apply h.handed hs _ rfl
    simp only [places,flatMap_append,flatMap_singleton,Work.single,← Multiset.coe_add,
      Multiset.coe_singleton]
    ac_rfl
  all_goals
    apply h.handed hs _ rfl
    simp only [places,insert_places]
    ac_rfl

theorem taken {w : Work φ} (h : works.find? (fun w => w.blk = blk) = some w) :
    ∃ before after,works = before ++ w :: after ∧ works.eraseP (fun w => w.blk = blk) =
    before ++ after := by
  obtain ⟨hbl,before,after,hw,hb⟩ := find?_eq_some_iff_append.mp h
  refine ⟨before,after,hw,?_⟩
  rw [hw,eraseP_append_right _ (by simpa using hb),eraseP_cons_of_pos (by simpa using hbl)]

theorem Accounted.step (h : Accounted s) (ht : step file s a = some t) : Accounted t := by
  obtain ⟨hat,hn⟩ := accounted_iff.mp h
  cases a with
  | request blk head chain alloc =>
    obtain ⟨_,ht⟩ := ite_none_right_eq_some.mp ht
    cases ht
    unfold handleBlk
    simp only
    split
    · exact h.handoff rfl
    · exact h
  | startRead alloc | startWrite alloc =>
    cases ht
    refine accounted_iff.mpr ⟨?_,hn⟩
    rw [← hat]
    simp only [places,flatMap_append,startIo_entries,← Multiset.coe_add,Multiset.coe_nil,
      zero_add,add_zero]
    ac_rfl
  | work blk ret =>
    simp only [Vhost.MicBlk.step] at ht
    split at ht
    · cases ht
    rename_i w hw
    split at ht
    · cases ht
      obtain ⟨before,after,hwr,he⟩ := taken hw
      refine accounted_iff.mpr ⟨?_,hn⟩
      rw [← hat]
      simp only [places,he]
      simp only [hwr,flatMap_append,flatMap_cons,map_append,completions_entries,← Multiset.coe_add]
      ac_rfl
    · cases ht

theorem behind_header (hc : chain.WellFormed) (ho : chain.out = hdr :: data) :
    let nvecs := if chain.hdr.type = VIRTIO_BLK_T_IN then chain.inn.length - 1 else data.length
    (data ++ chain.inn).take nvecs = chain.buffers ∧ (data ++ chain.inn)[nvecs]? =
      chain.inn.getLast? := by
  have ha := hc.alone
  simp only [Chain.buffers]
  by_cases hin : chain.hdr.type = VIRTIO_BLK_T_IN
  · simp only [hin,if_true,ho,length_cons,Nat.add_eq_right,length_eq_zero_iff] at ha ⊢
    rw [ha,nil_append,dropLast_eq_take,getLast?_eq_getElem?]
    exact ⟨rfl,rfl⟩
  · simp only [hin,if_false] at ha ⊢
    obtain ⟨st,hst⟩ := length_eq_one_iff.mp ha
    simp [ho,hst]

theorem filled_own (hc : chain.WellFormed) {blk head seq : Nat} :
    Own file (fillVbio file blk head chain ((chain.out ++ chain.inn).drop 1)
      (if chain.hdr.type = VIRTIO_BLK_T_IN then chain.inn.length - 1
      else chain.out.length - 1) seq) := by
  cases ho : chain.out with
  | nil =>
    have hh := hc.header
    rw [ho] at hh
    cases hh
  | cons hdr data =>
    obtain ⟨hd,hl⟩ := behind_header hc ho
    refine ⟨rfl,rfl,rfl,hd,rfl,?_,?_⟩
    · exact (congrArg (calculateLen · % SECTOR_SIZE) hd).trans hc.sectors
    have hne : chain.inn.getLast? ≠ none := by
      intro hn
      have hs := hc.status
      rw [getLast?_map,hn] at hs
      cases hs
    obtain ⟨st,hst⟩ := ne_none_iff_exists'.mp hne
    rw [hst] at hl
    simp only [fillVbio]
    rw [hst,getD_eq_getElem?_getD]
    simp [hl,getD_some]

/-- What waits and what is done is what the cards asked for. -/
structure Isolated (file : Nat → φ) (s : State φ) : Prop where
  reads : ∀ v ∈ s.readQueue,Own file v ∧ kind v.type = .read
  writes : ∀ v ∈ s.writeQueue,Own file v ∧ kind v.type = .write
  works : ∀ w ∈ s.works,Faithful file w
  completed : ∀ c ∈ s.completed,Right file c

theorem Isolated.handoff (h : Isolated file s) (hv : Own file v) : Isolated file (handoffIo s v) := by
  have hi : ∀ (queue : List (Vbio φ)) (k : Kind),(∀ u ∈ queue,Own file u ∧ kind u.type = k) →
      kind v.type = k → ∀ u ∈ insertToQueue v queue,Own file u ∧ kind u.type = k := by
    intro queue k hq hk u hu
    rcases mem_cons.mp ((insertToQueue_perm).mem_iff.mp hu) with rfl | ho
    · exact ⟨hv,hk⟩
    · exact hq u ho
  unfold handoffIo
  split
  · refine { h with works := fun w hw => ?_ }
    rcases mem_append.mp hw with ho | hn
    · exact h.works w ho
    · rw [mem_singleton.mp hn]
      exact single_faithful hv
  · exact { h with writes := hi _ _ h.writes ‹_› }
  · exact { h with reads := hi _ _ h.reads ‹_› }

/-- Adjacent requests in a queue come from one card, and a transfer fails or is complete. -/
def Allowed (s : State φ) : Act φ → Prop
  | .request _ _ _ _ => True
  | .startRead _ => Unmixed s.readQueue
  | .startWrite _ => Unmixed s.writeQueue
  | .work blk ret => ∀ w,s.works.find? (fun w => w.blk = blk) = some w → Whole w ret

theorem Isolated.started (h : Isolated file s) (hn : ∀ w ∈ more,Faithful file w) :
    ∀ w ∈ s.works ++ more,Faithful file w := by exact forall_mem_append.mpr ⟨h.works,hn⟩

theorem Isolated.step (h : Isolated file s) (ha : Allowed s a) (ht : step file s a = some t) :
    Isolated file t := by
  cases a with
  | request blk head chain alloc =>
    obtain ⟨hc,ht⟩ := ite_none_right_eq_some.mp ht
    cases ht
    unfold handleBlk
    simp only
    split
    · exact h.handoff (filled_own hc)
    · exact h
  | startRead alloc =>
    cases ht
    refine ⟨fun u hu => absurd hu not_mem_nil,h.writes,h.started ?_,h.completed⟩
    exact startIo_faithful ha (fun u hu => (h.reads u hu).1) (fun u hu => (h.reads u hu).2)
  | startWrite alloc =>
    cases ht
    refine ⟨h.reads,fun u hu => absurd hu not_mem_nil,h.started ?_,h.completed⟩
    exact startIo_faithful ha (fun u hu => (h.writes u hu).1) (fun u hu => (h.writes u hu).2)
  | work blk ret =>
    simp only [Vhost.MicBlk.step] at ht
    split at ht
    · cases ht
    rename_i w hw
    split at ht
    · cases ht
      have hm := mem_of_find?_eq_some hw
      have hf := h.works w hm
      refine ⟨h.reads,h.writes,fun u hu => h.works u (mem_of_mem_eraseP hu),fun c hc => ?_⟩
      rcases mem_append.mp hc with ho | hn
      · exact h.completed c ho
      · have hp : Placed (w.sector * SECTOR_SIZE + calculateLen []) w.entries := by
          simpa [calculateLen] using hf.placed
        exact completions_right hf (ha w hw) [] w.entries (fun u hu => hu) hf.iov hp c hn
    · cases ht

/-- Each request is completed at most once, and as its card asked if adjacent requests in a queue
come from one card and every transfer fails or is complete. -/
theorem merging_invisible (hrun : exec (step file) init as = some t) :
    Accounted t ∧ (Along (step file) Allowed init as → ∀ c ∈ t.completed,Right file c) := by
  constructor
  · have hi : Accounted (init : State φ) := ⟨.refl _,rfl⟩
    exact exec_invariant (fun _ _ _ hs _ ht => hs.step ht) hi
      (Along.always (fun _ _ => trivial) init as) hrun
  · intro ha
    have hi : Isolated file (init : State φ) := by constructor <;> simp [init]
    exact (exec_invariant (fun _ _ _ hs ha ht => hs.step ha ht) hi ha hrun).completed

def writeOf (sector : Nat) : Chain := ⟨⟨VIRTIO_BLK_T_OUT,sector⟩,[⟨0,16⟩,⟨4096,512⟩],[⟨8192,1⟩]⟩

def readOf (sector : Nat) : Chain := ⟨⟨VIRTIO_BLK_T_IN,sector⟩,[⟨0,16⟩],[⟨4096,512⟩,⟨8192,1⟩]⟩

/-- Two writes of one card are joined. -/
def joined : List (Act Nat) :=
  [.request 0 5 (writeOf 1) true,.request 0 3 (writeOf 0) true,.startWrite
    (fun _ => true),.work 0 (some 1024)]

theorem joined_allowed : Along (step id) Allowed init joined := by
  refine .cons trivial rfl (.cons trivial rfl (.cons ?_ rfl (.cons ?_ rfl trivial)))
  · exact isChain_cons_cons.mpr ⟨fun _ => rfl,.singleton _⟩
  · intro w hw n hn
    cases hw
    cases hn
    exact .inr rfl

theorem joined_writes_right : ∃ t : State Nat,exec (step id) init joined = some t ∧
    t.completed.length = 2 ∧ ∀ c ∈ t.completed,Right id c :=
  ⟨_,rfl,rfl,(merging_invisible rfl).2 joined_allowed⟩

/-- A write of card 1 is joined to one of card 0 and goes to its file. -/
theorem requests_not_isolated :
    (∃ t : State Nat,exec (step id) init [.request 0 5 (writeOf 0) true,.request 1 3 (writeOf 1) true,
        .startWrite (fun _ => true),.work 0 (some 1024)] = some t ∧
      ∃ c ∈ t.completed,c.req.blk = 1 ∧ c.ring = 0 ∧ c.file = 0 ∧ c.aper = 0) ∧
    (∃ t : State Nat,exec (step id) init [.request 0 5 (readOf 0) true,.startRead (fun _ => true),
        .work 0 (some 100)] = some t ∧
      ∃ c ∈ t.completed,c.status = VIRTIO_BLK_S_OK ∧ c.moved = 100 ∧
        calculateLen c.req.chain.buffers = 512) := by
  refine ⟨⟨_,rfl,_,.tail _ mem_cons_self,rfl,rfl,rfl,rfl⟩,⟨_,rfl,_,mem_cons_self,rfl,rfl,rfl⟩⟩

end Mpss.Proofs.BlkIsolated
