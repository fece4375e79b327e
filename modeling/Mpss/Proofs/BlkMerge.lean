import Mathlib.Data.List.Chain
import Mathlib.Data.List.Perm.Basic
import Mpss.Vhost.MicBlk

namespace Mpss.Proofs.BlkMerge
open Vhost.MicBlk List

variable {φ : Type} {file : Nat → φ} {v e : Vbio φ} {queue start : List (Vbio φ)} {w : Work φ}

@[simp] theorem calculateLen_append (a b : List Iov) :
    calculateLen (a ++ b) = calculateLen a + calculateLen b := by
  simp [calculateLen]

theorem insertToQueue_perm : (insertToQueue v queue).Perm (v :: queue) := by
  induction queue with
  | nil => exact .refl _
  | cons e queue ih =>
    unfold insertToQueue
    split
    · exact .refl _
    · exact (List.Perm.cons e ih).trans (.swap v e queue)

theorem startLoop_flatten (start : List (Vbio φ)) (v : Vbio φ) (queue : List (Vbio φ)) :
    (startLoop start v queue).flatten = start ++ v :: queue := by
  induction queue generalizing start v with
  | nil => simp [startLoop]
  | cons e queue ih =>
    unfold startLoop
    split
    all_goals simp [ih]

theorem startRuns_flatten (queue : List (Vbio φ)) : (startRuns queue).flatten = queue := by
  cases queue with
  | nil => rfl
  | cons v queue => exact startLoop_flatten [] v queue

theorem startLoop_adjacent (hs : (start ++ [v]).IsChain (fun a b => adjacent a b = true)) :
    ∀ run ∈ startLoop start v queue,run.IsChain (fun a b => adjacent a b = true) := by
  induction queue generalizing start v with
  | nil =>
    intro run hrn
    rw [mem_singleton.mp hrn]
    exact hs
  | cons e queue ih =>
    intro run hrn
    unfold startLoop at hrn
    split_ifs at hrn with ha
    · apply ih _ run hrn
      rw [isChain_append]
      refine ⟨hs,.singleton e,?_⟩
      simpa using ha
    · rcases mem_cons.mp hrn with rfl | hr
      · exact hs
      · exact ih (.singleton e) run hr

theorem startRuns_adjacent : ∀ run ∈ startRuns queue,run.IsChain (fun a b => adjacent a b = true) := by
  cases queue with
  | nil => exact fun run hr => absurd hr not_mem_nil
  | cons v queue => exact startLoop_adjacent (.singleton v)

/-- No entry is lost or queued twice, with memory for the joined transfer or without. -/
theorem merge_entries : (mergeAndHandoffWork alloc run).flatMap Work.entries = run := by
  unfold mergeAndHandoffWork
  split
  · rfl
  · rfl
  · split
    · simp [Work.merged]
    · simp [flatMap_map,Work.single]

theorem startIo_entries : (startIo alloc queue).flatMap Work.entries = queue := by
  unfold startIo
  rw [flatMap_assoc]
  simp only [merge_entries]
  rw [flatMap_id',startRuns_flatten]

/-- The `vhost_blk_io` is what the card asked for. -/
structure Own (file : Nat → φ) (v : Vbio φ) : Prop where
  file : v.file = file v.blk
  type : v.type = v.chain.hdr.type
  sector : v.sector = v.chain.hdr.sector
  iov : v.iov = v.chain.buffers
  len : v.len = calculateLen v.iov
  sectors : v.len % SECTOR_SIZE = 0
  status : v.chain.inn.getLast? = some v.status

/-- One entry after the other in the file, from byte `pos` on. -/
def Placed : Nat → List (Vbio φ) → Prop
  | _,[] => True
  | pos,v :: entries => v.sector * SECTOR_SIZE % 2 ^ 64 = pos % 2 ^ 64 ∧ Placed (pos + v.len) entries

/-- A work item does for each of its entries what the entry asks for. -/
structure Faithful (file : Nat → φ) (w : Work φ) : Prop where
  own : ∀ v ∈ w.entries,Own file v
  same : ∀ v ∈ w.entries,v.blk = w.blk ∧ kind v.type = kind w.type
  file : w.file = file w.blk
  iov : w.iov = w.entries.flatMap Vbio.iov
  placed : Placed (w.sector * SECTOR_SIZE) w.entries

theorem single_faithful (h : Own file v) : Faithful file (.single v) where
  own := fun u hu => by
    rw [mem_singleton.mp hu]
    exact h
  same := fun u hu => by
    rw [mem_singleton.mp hu]
    exact ⟨rfl,rfl⟩
  file := h.file
  iov := by simp [Work.single]
  placed := ⟨rfl,trivial⟩

theorem adjacent_pos (ho : Own file v) (ha : adjacent v e = true) (pos : Nat)
    (hp : v.sector * SECTOR_SIZE % 2 ^ 64 = pos % 2 ^ 64) :
    e.sector * SECTOR_SIZE % 2 ^ 64 = (pos + v.len) % 2 ^ 64 := by
  have hn : (v.sector + v.len / SECTOR_SIZE) % 2 ^ 64 = e.sector := by simpa [adjacent] using ha
  have hl : v.len / SECTOR_SIZE * SECTOR_SIZE = v.len := by
    have hd := Nat.div_add_mod v.len SECTOR_SIZE
    rw [ho.sectors] at hd
    rw [mul_comm]
    exact hd
  calc e.sector * SECTOR_SIZE % 2 ^ 64
      = (v.sector + v.len / SECTOR_SIZE) * SECTOR_SIZE % 2 ^ 64 := by rw [← hn,Nat.mod_mul_mod]
    _ = (v.sector * SECTOR_SIZE + v.len) % 2 ^ 64 := by rw [add_mul,hl]
    _ = (pos + v.len) % 2 ^ 64 := by rw [Nat.add_mod,hp,← Nat.add_mod]

theorem adjacent_placed (ho : ∀ u ∈ v :: queue,Own file u)
    (ha : (v :: queue).IsChain (fun a b => adjacent a b = true)) (pos : Nat)
    (hp : v.sector * SECTOR_SIZE % 2 ^ 64 = pos % 2 ^ 64) : Placed pos (v :: queue) := by
  induction queue generalizing v pos with
  | nil => exact ⟨hp,trivial⟩
  | cons e queue ih =>
    obtain ⟨hf,hr⟩ := isChain_cons_cons.mp ha
    refine ⟨hp,ih (forall_mem_cons.mp ho).2 hr _ ?_⟩
    exact adjacent_pos (ho v mem_cons_self) hf pos hp

theorem merge_faithful (ho : ∀ u ∈ run,Own file u)
    (hk : ∀ u ∈ run,kind u.type = k) (ha : run.IsChain (fun a b => adjacent a b = true))
    (hs : run.Pairwise (fun a b => a.blk = b.blk)) :
    ∀ w ∈ mergeAndHandoffWork alloc run,Faithful file w := by
  intro w hw
  unfold mergeAndHandoffWork at hw
  split at hw
  · cases hw
  · rw [mem_singleton.mp hw]
    exact single_faithful (ho _ mem_cons_self)
  rename_i entry queue _
  split at hw
  · rw [mem_singleton.mp hw]
    have hf := hk entry mem_cons_self
    exact {
      own := ho
      same := fun u hu => by
        refine ⟨?_,(hk u hu).trans hf.symm⟩
        rcases mem_cons.mp hu with rfl | hr
        · rfl
        · exact ((pairwise_cons.mp hs).1 u hr).symm
      file := (ho entry mem_cons_self).file
      iov := rfl
      placed := adjacent_placed ho ha _ rfl }
  · obtain ⟨u,hu,rfl⟩ := mem_map.mp hw
    exact single_faithful (ho u hu)

/-- Requests of different cards do not follow each other in a queue. -/
def Unmixed (queue : List (Vbio φ)) : Prop := queue.IsChain
    (fun a b => adjacent a b = true → a.blk = b.blk)

theorem isChain_mp {run : List (Vbio φ)} (h : run.IsChain R)
    (hi : run.IsChain (fun a b => R a b → S a b)) : run.IsChain S := by
  induction run with
  | nil => exact .nil
  | cons a run ih =>
    cases run with
    | nil => exact .singleton a
    | cons b run =>
      obtain ⟨hab,hr⟩ := isChain_cons_cons.mp h
      obtain ⟨hsb,hs⟩ := isChain_cons_cons.mp hi
      exact isChain_cons_cons.mpr ⟨hsb hab,ih hr hs⟩

instance : Trans (fun a b : Vbio φ => a.blk = b.blk) (fun a b : Vbio φ => a.blk = b.blk)
    (fun a b : Vbio φ => a.blk = b.blk) :=
  ⟨Eq.trans⟩

theorem run_same (hq : Unmixed queue) (hrn : run ∈ startRuns queue) :
    run.Pairwise (fun a b => a.blk = b.blk) := by
  have hi : run <:+: queue := by
    obtain ⟨before,after,hr⟩ := append_of_mem hrn
    have hf := startRuns_flatten queue
    rw [hr,flatten_append,flatten_cons] at hf
    exact ⟨before.flatten,after.flatten,by rw [append_assoc]; exact hf⟩
  apply List.IsChain.pairwise
  exact isChain_mp (startRuns_adjacent run hrn) ( List.IsChain.infix hq hi)

theorem startIo_faithful (hq : Unmixed queue) (ho : ∀ u ∈ queue,Own file u)
    (hk : ∀ u ∈ queue,kind u.type = k) : ∀ w ∈ startIo alloc queue,Faithful file w := by
  intro w hw
  obtain ⟨run,hr,hm⟩ := mem_flatMap.mp hw
  have hmm : ∀ u ∈ run,u ∈ queue := by
    intro u hu
    rw [← startRuns_flatten queue]
    exact mem_flatten.mpr ⟨run,hr,hu⟩
  exact merge_faithful (fun u hu => ho u (hmm u hu)) (fun u hu => hk u (hmm u hu))
    (startRuns_adjacent run hr) (run_same hq hr) w hm

/-- A request was carried out as its card asked, and completed there; status 0 says that all of it
was done. -/
structure Right (file : Nat → φ) (c : Completion φ) : Prop where
  ring : c.ring = c.req.blk
  head : c.head = c.req.head
  status : c.req.chain.inn.getLast? = some c.statusAt.2 ∧ c.statusAt.1 = c.req.blk
  file : c.file = file c.req.blk
  kind : c.kind = kind c.req.chain.hdr.type
  data : c.kind ≠ .flush → c.aper = c.req.blk ∧ c.iov = c.req.chain.buffers ∧
    c.pos = c.req.chain.hdr.sector * SECTOR_SIZE % 2 ^ 64
  done : c.status = VIRTIO_BLK_S_OK → ∃ n,c.ret = some n ∧
    (c.kind ≠ .flush → c.moved = calculateLen c.req.chain.buffers)

/-- The whole transfer succeeded, or none of it. -/
def Whole (w : Work φ) (ret : Option Nat) : Prop :=
  ∀ n,ret = some n → kind w.type = .flush ∨ n = calculateLen w.iov

theorem completions_right (hw : Faithful file w) (hrt : Whole w ret) (pre : List Iov)
    (entries : List (Vbio φ))
    (hsb : ∀ v ∈ entries,v ∈ w.entries) (hi : w.iov = pre ++ entries.flatMap Vbio.iov)
    (hp : Placed (w.sector * SECTOR_SIZE + calculateLen pre) entries) :
    ∀ c ∈ completions w ret pre.length entries,Right file c := by
  induction entries generalizing pre with
  | nil => exact fun c hc => absurd hc not_mem_nil
  | cons v entries ih =>
    have hv := hsb v mem_cons_self
    have ho := hw.own v hv
    obtain ⟨hbl,hk⟩ := hw.same v hv
    have hb : w.iov.take pre.length = pre := by
      rw [hi]
      exact take_left' rfl
    have hs : (w.iov.drop pre.length).take v.iov.length = v.iov := by
      rw [hi,drop_left' rfl,flatMap_cons]
      exact take_left' rfl
    intro c hc
    rcases mem_cons.mp hc with rfl | hr
    · refine ⟨hbl.symm,rfl,⟨ho.status,hbl.symm⟩,?_,?_,fun _ => ⟨hbl.symm,?_,?_⟩,fun hok => ?_⟩
      · exact hw.file.trans (congrArg file hbl.symm)
      · exact hk.symm.trans (congrArg kind ho.type)
      · exact hs.trans ho.iov
      · simp only [hb]
        rw [← hp.1,ho.sector]
      cases hr' : ret with
      | none => simp [hr',VIRTIO_BLK_S_OK,VIRTIO_BLK_S_IOERR] at hok
      | some n =>
        refine ⟨n,rfl,fun hf => ?_⟩
        have hn := (hrt n hr').resolve_left hf
        simp only [hb,hs,Option.getD_some,← ho.iov]
        apply min_eq_left
        rw [hn,hi]
        simp
    · apply ih (pre ++ v.iov)
      · exact (forall_mem_cons.mp hsb).2
      · rw [hi]
        simp
      · rw [calculateLen_append,← add_assoc,← ho.len]
        exact hp.2
      · rw [length_append]
        exact hr

theorem completions_entries : (completions w ret k entries).map Completion.req = entries := by
  induction entries generalizing k with
  | nil => rfl
  | cons v entries ih => simp [completions,ih]

end Mpss.Proofs.BlkMerge
