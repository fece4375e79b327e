import Mpss.Dma.Lib
import Mpss.Library.Laps

namespace Mpss.Proofs.DmaChannel

open Dma.Lib Library.Laps List Function Option

theorem incrRbIndex_slot : incrRbIndex (p % n : Nat) n = (p + 1) % n := by
  rw [← slot_succ,incrRbIndex]
  exact congrArg Int.toNat (Int.natCast_mod (p % n + 1) n).symm

/-- A completion ring: `h` entries were taken, `e` of them served; the tail is behind what is
served, less than a lap behind the head. -/
structure Tracks (ring : ComplBufRing) (h e : Nat) : Prop where
  size : 0 < ring.size
  head : ring.head = h % ring.size
  location : readTail ring = e % ring.size
  served : e ≤ h
  tail : ∃ t ≤ e,ring.tail = t % ring.size ∧ h < t + ring.size

section
variable (ht : Tracks ring h e)
include ht

theorem Tracks.update : Tracks (updateTail ring (readTail ring)) h e := by
  obtain ⟨t,hte,-,hl⟩ := ht.tail
  exact ⟨ht.size,ht.head,ht.location,ht.served,e,le_rfl,ht.location,by
    simp only [updateTail]
    omega⟩

theorem availLoop_spec :
    Tracks (availLoop ring n).2 h e ∧ (availLoop ring n).2.size = ring.size ∧
      ((availLoop ring n).1 = true →
        ∃ t ≤ e,(availLoop ring n).2.tail = t % ring.size ∧ h + 1 < t + ring.size) := by
  induction n generalizing ring with
  | zero => exact ⟨ht,rfl,by simp [availLoop]⟩
  | succ n ih =>
    obtain ⟨t,hte,htl,hl⟩ := ht.tail
    have hsr := ht.served
    have hf := free_slots (hte.trans hsr) hl
    rw [← ht.head,← htl] at hf
    simp only [availLoop]
    split
    · rename_i heq
      rw [if_pos heq] at hf
      refine ⟨ht,rfl,?_⟩
      intro hs
      have : ring.size - 1 ≠ 0 := by simpa using hs
      exact ⟨t,hte,htl,by omega⟩
    rename_i hne
    rw [if_neg hne] at hf
    generalize (if ring.head > ring.tail then ring.tail + (ring.size - ring.head)
      else ring.tail - ring.head) = count at hf ⊢
    split
    · refine ⟨ht,rfl,?_⟩
      intro hs
      exact ⟨t,hte,htl,by omega⟩
    · split
      · exact ⟨ht,rfl,by simp⟩
      · exact ih ht.update

theorem Tracks.take (ha : allocateBuffer ring = (some i,ring')) :
    i = h % ring.size ∧ ring'.size = ring.size ∧ Tracks ring' h e ∧ Tracks (incrHead ring')
    (h + 1) e := by
  have hsc : Tracks (availSpaceInRing ring).2 h e ∧ (availSpaceInRing ring).2.size = ring.size ∧
      ((availSpaceInRing ring).1 = true →
        ∃ t ≤ e,(availSpaceInRing ring).2.tail = t % ring.size ∧ h + 1 < t + ring.size) :=
    availLoop_spec ht
  obtain ⟨hs,hsz,hsp⟩ := hsc
  simp only [allocateBuffer,Prod.mk.injEq] at ha
  obtain ⟨hi,rfl⟩ := ha
  obtain ⟨hok,hi⟩ := ite_none_right_eq_some.mp hi
  obtain ⟨t,hte,htl,hl⟩ := hsp hok
  cases hi
  refine ⟨?_,hsz,hs,?_⟩
  · rw [hs.head,hsz]
  · refine ⟨hs.size,?_,hs.location,Nat.le_succ_of_le hs.served,t,hte,?_,?_⟩
    · simp only [incrHead,hs.head]
      exact incrRbIndex_slot
    · simpa [incrHead,hsz] using htl
    · simpa [incrHead,hsz] using hl

theorem Tracks.processed (hk : k < h) (hp : isEntryProcessed ring (k % ring.size) = true) : k < e := by
  obtain ⟨t,hte,htl,hl⟩ := ht.tail
  rcases lt_or_ge k t with hkt | hkt
  · exact hkt.trans_le hte
  have hd := lap_cases t (show k - t < ring.size by omega)
  have hh := lap_cases t (show h - t < ring.size by omega)
  have hs := slot_lt h (show 0 < ring.size by omega)
  rw [Nat.add_sub_cancel' hkt] at hd
  rw [Nat.add_sub_cancel' (hkt.trans hk.le)] at hh
  simp only [isEntryProcessed,ht.head,htl] at hp
  split at hp
  · simp only [Bool.and_eq_true,decide_eq_true_eq] at hp
    omega
  · simp only [Bool.or_eq_true,decide_eq_true_eq] at hp
    omega

end

theorem initRing_tracks (hn : 0 < n) : Tracks (initRing n) 0 0 := by
  refine ⟨hn,by simp [initRing],by simp [readTail,incrRbIndex,initRing],le_rfl,0,
    le_rfl,by simp [initRing],?_⟩
  simp only [initRing]
  omega

/-- Nothing the engine has yet to execute is overwritten, and what it executed is what was written,
in order. -/
structure Queue (start : Nat) (ch : DmaChannel) : Prop where
  size : 0 < ch.numDescInRing
  write : ch.nextWriteIndex = (start + ch.programmed.length) % ch.numDescInRing
  tail : ch.dtpr = (start + ch.executed.length) % ch.numDescInRing
  order : ch.executed <+: ch.programmed
  kept : ∀ k d,ch.executed.length ≤ k → ch.programmed[k]? = some d → ch.descRing
    ((start + k) % ch.numDescInRing) = d
  cached : ∃ c ≤ ch.executed.length,ch.cachedTail = (start + c) % ch.numDescInRing ∧
    ch.programmed.length < c + ch.numDescInRing

def Room (start : Nat) (ch : DmaChannel) (num : Nat) : Prop :=
  ∃ c ≤ ch.executed.length,ch.cachedTail = (start + c) % ch.numDescInRing ∧
    ch.programmed.length + num < c + ch.numDescInRing

section
variable (hq : Queue start ch)
include hq

theorem Queue.refresh : Queue start { ch with cachedTail := ch.dtpr } := by
  obtain ⟨c,hc,-,hl⟩ := hq.cached
  exact ⟨hq.size,hq.write,hq.tail,hq.order,hq.kept,ch.executed.length,le_rfl,hq.tail,by
    simp only
    omega⟩

theorem availDescLoop_spec :
    ∃ tail,(availDescLoop ch num n).2 = { ch with cachedTail := tail } ∧
      Queue start (availDescLoop ch num n).2 ∧
      (num ≤ (availDescLoop ch num n).1 → Room start (availDescLoop ch num n).2 num) := by
  induction n generalizing ch with
  | zero =>
    obtain ⟨c,hc,hcc,hl⟩ := hq.cached
    refine ⟨ch.cachedTail,rfl,hq,?_⟩
    intro h0
    exact ⟨c,hc,hcc,by simp only [availDescLoop] at h0 ⊢; omega⟩
  | succ n ih =>
    obtain ⟨c,hc,hcc,hl⟩ := hq.cached
    have hln := hq.order.length_le
    have hf := free_slots (show start + c ≤ start + ch.programmed.length by omega)
      (show start + ch.programmed.length < start + c + ch.numDescInRing by omega)
    rw [← hq.write,← hcc] at hf
    simp only [availDescLoop]
    split
    · rename_i heq
      rw [if_pos heq] at hf
      refine ⟨ch.cachedTail,rfl,hq,?_⟩
      intro hn
      exact ⟨c,hc,hcc,by simp only at hn ⊢; omega⟩
    rename_i hne
    rw [if_neg hne] at hf
    generalize (if ch.nextWriteIndex > ch.cachedTail then
      ch.cachedTail + (ch.numDescInRing - ch.nextWriteIndex)
      else ch.cachedTail - ch.nextWriteIndex) = count at hf ⊢
    split
    · refine ⟨ch.cachedTail,rfl,hq,?_⟩
      intro hn
      exact ⟨c,hc,hcc,by simp only at hn ⊢; omega⟩
    · obtain ⟨tail,heq,hr⟩ := ih hq.refresh
      exact ⟨tail,heq,hr⟩

theorem waitDescSpace_spec (hw : waitDescSpace ch num = some ch') :
    ∃ tail,ch' = { ch with cachedTail := tail } ∧ Queue start ch' ∧ Room start ch' num := by
  set r := mdAvailDescRingSpace ch num
  have hs : ∃ tail,r.2 = { ch with cachedTail := tail } ∧
      Queue start r.2 ∧
      (num ≤ r.1 → Room start r.2 num) :=
    availDescLoop_spec hq
  obtain ⟨tail,heq,hq',hr⟩ := hs
  obtain ⟨hn,hw⟩ := ite_none_left_eq_some.mp hw
  cases hw
  exact ⟨tail,heq,hq',hr (Nat.le_of_not_lt hn)⟩

theorem Queue.write_desc (hr : Room start ch (n + 1)) (d : Desc) :
    Queue start (ch.write d) ∧ Room start (ch.write d) n := by
  obtain ⟨c,hc,hcc,hl⟩ := hr
  have hp : (ch.programmed ++ [d]).length = ch.programmed.length + 1 := by simp
  have hrm : ch.programmed.length + 1 + n < c + ch.numDescInRing := by omega
  refine ⟨⟨hq.size,?_,hq.tail,hq.order.trans (prefix_append _ _),?_,c,hc,hcc,?_⟩,c,hc,hcc,?_⟩
  · simp only [DmaChannel.write,hq.write,hp]
    rw [incrRbIndex_slot,add_assoc]
  · intro k e hk he
    simp only [DmaChannel.write,hq.write] at hk he ⊢
    rcases lt_trichotomy k ch.programmed.length with hlt | heq | hgt
    · rw [getElem?_append_left hlt] at he
      rw [update_other (t := start + c) (by omega) (by omega) (by omega) (by omega) (by omega)]
      exact hq.kept k e hk he
    · subst heq
      rw [getElem?_append_right le_rfl] at he
      simp only [Nat.sub_self,getElem?_cons_zero,some.injEq] at he
      rw [update_self,he]
    · rw [getElem?_eq_none (by omega)] at he
      cases he
  · simp only [DmaChannel.write,hp]
    omega
  · simp only [DmaChannel.write,hp]
    exact hrm

theorem Queue.write_all (hr : Room start ch (ds.length + n)) :
    Queue start (ch.writeAll ds) ∧ Room start (ch.writeAll ds) n := by
  induction ds generalizing ch with
  | nil => exact ⟨hq,by simpa [DmaChannel.writeAll] using hr⟩
  | cons d ds ih =>
    have hr' : Room start ch (ds.length + n + 1) := by
      rw [length_cons] at hr
      convert hr using 1
      omega
    obtain ⟨hq',hrm⟩ := hq.write_desc hr' d
    exact ih hq' hrm

end

def reports (r : Dap) : Desc → Bool
  | .memcpy _ _ _ => false
  | .status _ dap _ => dap == r

def statuses (r : Dap) (l : List Desc) : Nat := l.countP (reports r)

@[simp] theorem statuses_append (l m : List Desc) :
    statuses r (l ++ m) = statuses r l + statuses r m := countP_append

theorem statuses_prefix (h : l <+: m) : statuses r l ≤ statuses r m := h.sublist.countP_le

theorem statuses_take_le (l : List Desc) (h : p ≤ q) : statuses r (l.take p) ≤ statuses r (l.take q) :=
  statuses_prefix (take_prefix_take_left h)

/-- Every descriptor is right for the number of reports before it. -/
def Counted (r : Dap) (P : Nat → Desc → Prop) (l : List Desc) : Prop :=
  ∀ p d,l[p]? = some d → P (statuses r (l.take p)) d

theorem Counted.append (hl : Counted r P l) (hd : P (statuses r l) d) : Counted r P (l ++ [d]) := by
  intro p e hp
  rcases lt_trichotomy p l.length with hlt | heq | hgt
  · rw [getElem?_append_left hlt] at hp
    rw [take_append_of_le_length hlt.le]
    exact hl p e hp
  · subst heq
    rw [getElem?_append_right le_rfl] at hp
    simp only [Nat.sub_self,getElem?_cons_zero,some.injEq] at hp
    rw [take_left,← hp]
    exact hd
  · rw [getElem?_eq_none (by simp; omega)] at hp
    cases hp

theorem Counted.append_all (hl : Counted r P l) (hd : ∀ d ∈ ds,∀ n,P n d) : Counted r P (l ++ ds) := by
  induction ds generalizing l with
  | nil => simpa using hl
  | cons d ds ih =>
    rw [append_cons]
    exact ih (hl.append (hd d mem_cons_self _)) (forall_mem_cons.mp hd).2

/-- Each report carries the slot of its entry, `c` reports in a row for an entry. -/
def Numbered (c n : Nat) (r : Dap) : List Desc → Prop :=
  Counted r (fun k d => ∀ data intr,d = .status data r intr → data = k / c % n)

theorem Numbered.append_other (hl : Numbered c n r l) (hd : ∀ d ∈ ds,reports r d = false) :
    Numbered c n r (l ++ ds) := by
  refine Counted.append_all hl ?_
  rintro d hm k data intr rfl
  have := hd _ hm
  simp [reports] at this

theorem statuses_other (hd : ∀ d ∈ ds,reports r d = false) : statuses r ds = 0 :=
  countP_eq_zero.mpr (fun d hm => by simp [hd d hm])

/-- A completion ring with the descriptors that report to it. -/
structure Ringed (c : Nat) (r : Dap) (ring : ComplBufRing) (h : Nat)
    (programmed executed : List Desc) : Prop where
  tracks : Tracks ring h ((statuses r executed + c - 1) / c)
  taken : statuses r programmed = c * h
  numbered : Numbered c ring.size r programmed

def serve (r : Dap) (ring : ComplBufRing) : Desc → ComplBufRing
  | .memcpy _ _ _ => ring
  | .status data dap _ => if dap = r then { ring with tailLocation := data } else ring

/-- The place of the first report of an entry with this slot. -/
def Placed (c n : Nat) (r : Dap) (l : List Desc) (slot p : Nat) : Prop :=
  p < l.length ∧ ∃ k,slot = k % n ∧ statuses r (l.take p) = c * k ∧ c * k < statuses r l

theorem Placed.append (hp : Placed c n r l slot p) (ds : List Desc) :
    Placed c n r (l ++ ds) slot p := by
  obtain ⟨hlt,k,hk,hc,hm⟩ := hp
  refine ⟨by simp; omega,k,hk,?_,?_⟩
  · rwa [take_append_of_le_length hlt.le]
  · rw [statuses_append]
    omega

section
variable (hr : Ringed c r ring h programmed executed)
include hr

theorem Ringed.execute (hc : 0 < c) (hd : executed ++ [d] <+: programmed) :
    Ringed c r (serve r ring d) h programmed (executed ++ [d]) := by
  have hb : executed <+: programmed := (prefix_append _ _).trans hd
  have hle := statuses_prefix (r := r) hd
  rw [statuses_append,hr.taken] at hle
  cases d with
  | memcpy src dst size =>
    refine ⟨?_,hr.taken,hr.numbered⟩
    have hz : statuses r [.memcpy src dst size] = 0 := rfl
    rw [statuses_append,hz]
    exact hr.tracks
  | status data dap intr =>
    by_cases hdp : dap = r
    · subst hdp
      set n := statuses dap executed
      have ho : statuses dap [.status data dap intr] = 1 := by simp [statuses,reports]
      have he : programmed[executed.length]? = some (.status data dap intr) := by
        obtain ⟨rest,rfl⟩ := hd
        simp
      have hdt := hr.numbered _ _ he data intr rfl
      rw [← prefix_iff_eq_take.mp hb] at hdt
      obtain ⟨t,hte,ht,hl⟩ := hr.tracks.tail
      have hcn : (statuses dap executed + 1 + c - 1) / c = n / c + 1 := by
        rw [show n + 1 + c - 1 = n + c by omega,
          Nat.add_div_right _ hc]
      have hg : (statuses dap executed + c - 1) / c ≤ n / c + 1 := by
        rw [← hcn]
        exact Nat.div_le_div_right (by omega)
      simp only [serve,if_true]
      refine ⟨?_,hr.taken,hr.numbered⟩
      rw [statuses_append,ho,hcn]
      refine ⟨hr.tracks.size,hr.tracks.head,?_,?_,t,hte.trans hg,ht,hl⟩
      · simp only [readTail,hdt]
        exact incrRbIndex_slot
      · exact Nat.div_lt_of_lt_mul (by omega)
    · have hz : statuses r [.status data dap intr] = 0 := by simp [statuses,reports,hdp]
      simp only [serve,hdp,if_false]
      refine ⟨?_,hr.taken,hr.numbered⟩
      rw [statuses_append,hz]
      exact hr.tracks

theorem Ringed.append_other (hd : ∀ d ∈ ds,reports r d = false) :
    Ringed c r ring h (programmed ++ ds) executed := by
  refine ⟨hr.tracks,?_,hr.numbered.append_other hd⟩
  rw [statuses_append,statuses_other hd,hr.taken,add_zero]

/-- A processed entry has its first report executed, and all before it. -/
theorem Ringed.processed (hc : 0 < c) (hx : executed <+: programmed)
    (hp : Placed c ring.size r programmed slot p)
    (hd : isEntryProcessed ring slot = true) : p < executed.length := by
  obtain ⟨hlt,k,rfl,hcn,hm⟩ := hp
  rw [hr.taken] at hm
  have hs := hr.tracks.processed (Nat.lt_of_mul_lt_mul_left hm) hd
  by_contra hge
  have hle := statuses_take_le (r := r) programmed (Nat.le_of_not_lt hge)
  rw [← prefix_iff_eq_take.mp hx,hcn] at hle
  have := (Nat.le_div_iff_mul_le hc).mp hs
  rw [Nat.succ_mul,mul_comm] at this
  omega

end

/-- The channel with more descriptors written and all else the driver keeps as it was. -/
structure Extends (ch ch' : DmaChannel) (ds : List Desc) : Prop where
  programmed : ch'.programmed = ch.programmed ++ ds
  executed : ch'.executed = ch.executed
  intrRing : ch'.intrRing = ch.intrRing
  pollRing : ch'.pollRing = ch.pollRing
  oldTail : ch'.oldTail = ch.oldTail
  callbacks : ch'.compCbArray = ch.compCbArray

theorem Extends.trans (h : Extends ch ch' ds) (h' : Extends ch' ch'' es) :
    Extends ch ch'' (ds ++ es) := by
  refine ⟨?_,h'.executed.trans h.executed,h'.intrRing.trans h.intrRing,h'.pollRing.trans h.pollRing,
    h'.oldTail.trans h.oldTail,h'.callbacks.trans h.callbacks⟩
  rw [h'.programmed,h.programmed,append_assoc]

theorem Extends.write (ch : DmaChannel) (d : Desc) : Extends ch (ch.write d) [d] :=
    ⟨rfl,rfl,rfl,rfl,rfl,rfl⟩

theorem Extends.writeAll (ch : DmaChannel) (ds : List Desc) : Extends ch (ch.writeAll ds) ds := by
  induction ds generalizing ch with
  | nil => exact ⟨by simp [DmaChannel.writeAll],rfl,rfl,rfl,rfl,rfl⟩
  | cons d ds ih => exact (Extends.write ch d).trans (ih (ch.write d))

theorem waitDescSpace_extends (hq : Queue start ch) (hw : waitDescSpace ch num = some ch') :
    Extends ch ch' [] ∧ Queue start ch' ∧ Room start ch' num := by
  obtain ⟨tail,rfl,hq',hr⟩ := waitDescSpace_spec hq hw
  exact ⟨⟨by simp,rfl,rfl,rfl,rfl,rfl⟩,hq',hr⟩

def Silent (d : Desc) : Prop := reports .intrRing d = false ∧ reports .pollRing d = false

theorem writeTransfers_spec (hq : Queue start ch)
    (hw : writeTransfers cfg ch src dst len n = some ch') :
    ∃ copies,Extends ch ch' copies ∧ Queue start ch' ∧ ∀ d ∈ copies,Silent d := by
  induction n generalizing ch src dst len with
  | zero =>
    cases hw
    exact ⟨[],⟨by simp,rfl,rfl,rfl,rfl,rfl⟩,hq,by simp⟩
  | succ n ih =>
    obtain ⟨mid,hwt,hrs⟩ := bind_eq_some_iff.mp hw
    obtain ⟨hm,hq',hr⟩ := waitDescSpace_extends hq hwt
    obtain ⟨copies,he,hq'',hs⟩ := ih (hq'.write_desc hr _).1 hrs
    refine ⟨_,(hm.trans (Extends.write mid _)).trans he,hq'',?_⟩
    intro d hd
    simp only [nil_append,singleton_append,mem_cons] at hd
    rcases hd with rfl | hd
    · exact ⟨rfl,rfl⟩
    · exact hs d hd

def TakenIf (b : Bool) (ring ring' : ComplBufRing) : Prop :=
  if b then ∃ mid,allocateBuffer ring = (some ring.head,mid) ∧ ring' = incrHead mid else ring' = ring

/-- What a successful call leaves: the transfers, then the report to the poll ring, then those to
the interrupt ring. -/
structure Called (cfg : Config) (start : Nat) (intr polling : Bool) (cb : Option Nat)
    (ch ch' : DmaChannel) (copies : List Desc) : Prop where
  programmed : ch'.programmed = ch.programmed ++ copies ++
    ((if polling then [.status ch.pollRing.head .pollRing false] else []) ++
      if intr then intrDescs cfg ch.intrRing.head else [])
  executed : ch'.executed = ch.executed
  oldTail : ch'.oldTail = ch.oldTail
  callbacks : ch'.compCbArray =
    if intr then update ch.compCbArray ch.intrRing.head cb else ch.compCbArray
  intrRing : TakenIf intr ch.intrRing ch'.intrRing
  pollRing : TakenIf polling ch.pollRing ch'.pollRing
  silent : ∀ d ∈ copies,Silent d
  queue : Queue start ch'
  published : ch'.dhpr = ch'.nextWriteIndex

theorem availLoop_head (ring : ComplBufRing) (n : Nat) : (availLoop ring n).2.head = ring.head := by
  induction n generalizing ring with
  | zero => rfl
  | succ n ih =>
    simp only [availLoop]
    split
    · rfl
    generalize (if ring.head > ring.tail then ring.tail + (ring.size - ring.head)
      else ring.tail - ring.head) = count
    split
    · rfl
    · split
      · rfl
      · exact ih _

theorem allocateBuffer_head (ha : allocateBuffer ring = (some i,mid)) : i = ring.head := by
  simp only [allocateBuffer,Prod.mk.injEq] at ha
  obtain ⟨hi,-⟩ := ha
  split at hi
  · cases hi
    exact availLoop_head ring _
  · cases hi

theorem allocIntr_spec (ha : allocIntr ch cb = some a) :
    ∃ mid,allocateBuffer ch.intrRing = (some ch.intrRing.head,mid) ∧
      a = (ch.intrRing.head,{ ch with
        intrRing := mid,compCbArray := update ch.compCbArray ch.intrRing.head cb }) := by
  simp only [allocIntr] at ha
  split at ha
  · cases ha
  · rename_i i mid heq
    cases ha
    obtain rfl := allocateBuffer_head heq
    exact ⟨mid,heq,rfl⟩

theorem allocPoll_spec (ha : allocPoll ch = some a) :
    ∃ mid,allocateBuffer ch.pollRing = (some ch.pollRing.head,mid) ∧
      a = (ch.pollRing.head,{ ch with pollRing := mid }) := by
  simp only [allocPoll] at ha
  split at ha
  · cases ha
  · rename_i i mid heq
    cases ha
    obtain rfl := allocateBuffer_head heq
    exact ⟨mid,heq,rfl⟩

theorem length_intrDescs (cfg : Config) (i j : Nat) :
    (intrDescs cfg i).length = (intrDescs cfg j).length := by
  unfold intrDescs
  split <;> rfl

theorem Queue.withRings (hq : Queue start ch) (intr poll : ComplBufRing) (cbs : Nat → Option Nat) :
    Queue start { ch with intrRing := intr,pollRing := poll,compCbArray := cbs } :=
  { hq with }

theorem Queue.publish (hq : Queue start ch) : Queue start (mdMicDmaChanWriteHead ch) := { hq with }

theorem Room.withRings (hr : Room start ch n) (intr poll : ComplBufRing) (cbs : Nat → Option Nat) :
    Room start { ch with intrRing := intr,pollRing := poll,compCbArray := cbs } n := hr

def reported (cfg : Config) (intr polling : Bool) (i j : Nat) (ch : DmaChannel) : DmaChannel :=
  let ch := if polling then pollStatus ch j else ch
  if intr then intrStatus cfg ch i else ch

theorem reported_queue (hq : Queue start ch)
    (hr : intr = true ∨ polling = true →
      Room start ch ((if intr then (intrDescs cfg 0).length else 0) + if polling then 1 else 0)) :
    Queue start (reported cfg intr polling i j ch) := by
  have hl := length_intrDescs cfg 0 i
  cases polling with
  | false =>
    cases intr with
    | false => exact hq
    | true =>
      have hrm := hr (.inl rfl)
      simp only [if_true,Bool.false_eq_true,if_false,hl] at hrm
      exact ((hq.withRings _ _ _).write_all (hrm.withRings _ _ _)).1
  | true =>
    have hrm := hr (.inr rfl)
    cases intr with
    | false => exact ((hq.withRings _ _ _).write_desc (n := 0) (hrm.withRings _ _ _) _).1
    | true =>
      simp only [if_true,hl] at hrm
      have hp := (hq.withRings ch.intrRing (incrHead ch.pollRing) ch.compCbArray).write_desc
        (hrm.withRings _ _ _) (.status j .pollRing false)
      exact ((hp.1.withRings _ _ _).write_all (n := 0) (hp.2.withRings _ _ _)).1

theorem reported_programmed :
    (reported cfg intr polling i j ch).programmed = ch.programmed ++
      ((if polling then [.status j .pollRing false] else []) ++
        if intr then intrDescs cfg i else []) := by
  have ha : ∀ ch',(intrStatus cfg ch' i).programmed = ch'.programmed ++ intrDescs cfg i :=
    fun ch' => (Extends.writeAll { ch' with intrRing := incrHead ch'.intrRing } _).programmed
  cases polling <;> cases intr <;> simp [reported,ha,pollStatus,DmaChannel.write]

theorem reported_fields :
    (reported cfg intr polling i j ch).executed = ch.executed ∧
      (reported cfg intr polling i j ch).oldTail = ch.oldTail ∧
      (reported cfg intr polling i j ch).compCbArray = ch.compCbArray ∧
      (reported cfg intr polling i j ch).intrRing = (if intr then incrHead ch.intrRing
      else ch.intrRing) ∧
      (reported cfg intr polling i j ch).pollRing = if polling then incrHead ch.pollRing
        else ch.pollRing := by
  have ha : ∀ ch',Extends { ch' with intrRing := incrHead ch'.intrRing } (intrStatus cfg ch' i)
      (intrDescs cfg i) := fun ch' => Extends.writeAll _ _
  cases polling <;> cases intr <;>
    simp [reported,pollStatus,DmaChannel.write,(ha _).executed,(ha _).oldTail,
      (ha _).callbacks,(ha _).intrRing,(ha _).pollRing]

theorem intr_alloc (ha : (if intr then allocIntr ch cb else some (0,ch)) = some a) :
    ∃ mid,a.2 = { ch with
        intrRing := mid
        compCbArray := if intr then update ch.compCbArray ch.intrRing.head cb else ch.compCbArray } ∧
      TakenIf intr ch.intrRing (if intr then incrHead mid else mid) ∧
      (intr = true → a.1 = ch.intrRing.head) := by
  cases intr with
  | true =>
    obtain ⟨mid,hm,rfl⟩ := allocIntr_spec ha
    exact ⟨mid,rfl,⟨mid,hm,rfl⟩,fun _ => rfl⟩
  | false =>
    cases ha
    exact ⟨ch.intrRing,rfl,rfl,by simp⟩

theorem poll_alloc (ha : (if polling then allocPoll ch else some (0,ch)) = some a) :
    ∃ mid,a.2 = { ch with pollRing := mid } ∧
      TakenIf polling ch.pollRing (if polling then incrHead mid else mid) ∧
      (polling = true → a.1 = ch.pollRing.head) := by
  cases polling with
  | true =>
    obtain ⟨mid,hm,rfl⟩ := allocPoll_spec ha
    exact ⟨mid,rfl,⟨mid,hm,rfl⟩,fun _ => rfl⟩
  | false =>
    cases ha
    exact ⟨ch.pollRing,rfl,rfl,by simp⟩

theorem Called.of_reports (hex : Extends { ch with
      intrRing := intrMid,pollRing := pollMid
      compCbArray := if intr then update ch.compCbArray ch.intrRing.head cb else ch.compCbArray }
      mid copies)
    (hin : TakenIf intr ch.intrRing (if intr then incrHead intrMid else intrMid))
    (hp : TakenIf polling ch.pollRing (if polling then incrHead pollMid else pollMid))
    (hi : intr = true → i = ch.intrRing.head) (hj : polling = true → j = ch.pollRing.head)
    (hs : ∀ d ∈ copies,Silent d) (hq : Queue start mid)
    (hr : intr = true ∨ polling = true →
      Room start mid ((if intr then (intrDescs cfg 0).length else 0) + if polling then 1 else 0))
    (he : ch' = mdMicDmaChanWriteHead (reported cfg intr polling i j mid)) :
    Called cfg start intr polling cb ch ch' copies := by
  obtain ⟨hx,ho,hc,hir,hpr⟩ := reported_fields
  subst he
  set out := mdMicDmaChanWriteHead (reported cfg intr polling i j mid)
  refine ⟨?_,hx.trans hex.executed,ho.trans hex.oldTail,hc.trans hex.callbacks,?_,?_,hs,
    (reported_queue hq hr).publish,rfl⟩
  · have hpg : out.programmed = _ :=
      reported_programmed
    rw [hpg,hex.programmed]
    cases intr <;> cases polling <;> simp [hi,hj]
  · rw [show out.intrRing = _ from hir,hex.intrRing]
    exact hin
  · rw [show out.pollRing = _ from hpr,hex.pollRing]
    exact hp

theorem intrDescs_length_pos (cfg : Config) (i : Nat) : 0 < (intrDescs cfg i).length := by
  unfold intrDescs
  split <;> simp

section
variable (hq : Queue start ch)
include hq

theorem copies_spec
    (hm : (if len ≠ 0 then programMemcpyDescriptors cfg ch src dst len else some ch) = some ch') :
    ∃ copies,Extends ch ch' copies ∧ Queue start ch' ∧ ∀ d ∈ copies,Silent d := by
  split at hm
  · exact writeTransfers_spec hq hm
  · cases hm
    exact ⟨[],⟨by simp,rfl,rfl,rfl,rfl,rfl⟩,hq,by simp⟩

theorem space_spec (hw : (if num ≠ 0 then waitDescSpace ch num else some ch) = some ch') :
    Extends ch ch' [] ∧ Queue start ch' ∧ (num ≠ 0 → Room start ch' num) := by
  split_ifs at hw with hn
  · obtain ⟨he,hq',hr⟩ := waitDescSpace_extends hq hw
    exact ⟨he,hq',fun _ => hr⟩
  · cases hw
    exact ⟨⟨by simp,rfl,rfl,rfl,rfl,rfl⟩,hq,fun h => absurd h hn⟩

theorem doDma_called (hd : doDma cfg ch flags src dst len cb = some r) :
    ∃ copies,Called cfg start flags.intr flags.polling cb ch r.2 copies ∧
      (flags.polling = true → r.1 = ch.pollRing.head) := by
  unfold doDma at hd
  split at hd
  · cases hd
  split at hd
  · cases hd
  obtain ⟨a,ha,hd⟩ := bind_eq_some_iff.mp hd
  obtain ⟨b,hb,hd⟩ := bind_eq_some_iff.mp hd
  obtain ⟨m,hm,hd⟩ := bind_eq_some_iff.mp hd
  obtain ⟨w,hw,rfl⟩ := map_eq_some_iff.mp hd
  obtain ⟨intrMid,hac,hin,hi⟩ := intr_alloc ha
  rw [hac] at hb
  obtain ⟨pollMid,hbc,hpl,hj⟩ := poll_alloc hb
  rw [hbc] at hm
  obtain ⟨copies,he,hqm,hs⟩ := copies_spec (hq.withRings _ _ _) hm
  obtain ⟨hwt,hqw,hr⟩ := space_spec hqm hw
  have hal := he.trans hwt
  rw [append_nil] at hal
  refine ⟨copies,Called.of_reports hal hin hpl hi hj hs hqw ?_ rfl,?_⟩
  · intro han
    apply hr
    have := intrDescs_length_pos cfg 0
    rcases han with h | h <;> simp only [numStatusDesc,h,if_true] <;> omega
  · intro hp
    simp only [hp,if_true]
    exact hj hp

theorem programDmaMark_called (hd : programDmaMark cfg ch = some r) :
    Called cfg start true false none ch r.2 [] ∧ r.1 = ch.intrRing.head := by
  unfold programDmaMark at hd
  split at hd
  · cases hd
  obtain ⟨a,ha,hd⟩ := bind_eq_some_iff.mp hd
  obtain ⟨w,hw,rfl⟩ := map_eq_some_iff.mp hd
  obtain ⟨mid,hm,rfl⟩ := allocIntr_spec ha
  obtain ⟨he,hqw,hr⟩ := waitDescSpace_extends (hq.withRings _ _ _) hw
  refine ⟨Called.of_reports (i := ch.intrRing.head) (j := 0) he ⟨mid,hm,rfl⟩ rfl (fun _ => rfl)
    (by simp) (by simp) hqw ?_ rfl,rfl⟩
  intro _
  exact hr

theorem doStatusUpdate_called (hd : doStatusUpdate ch addr value = some ch') :
    Called cfg start false false none ch ch' [.status value (.phys addr) false] := by
  unfold doStatusUpdate at hd
  split at hd
  · cases hd
  obtain ⟨w,hw,rfl⟩ := map_eq_some_iff.mp hd
  obtain ⟨he,hqw,hr⟩ := waitDescSpace_extends hq hw
  refine Called.of_reports (i := 0) (j := 0) (he.trans (Extends.write w _)) rfl rfl (by simp)
    (by simp) ?_ (hqw.write_desc hr _).1 (by simp) rfl
  intro d hd
  rw [mem_singleton.mp hd]
  exact ⟨rfl,rfl⟩

end

theorem Numbered.append_entry (hl : Numbered c n r l) (hc : statuses r l = c * h + j)
    (hln : j + ds.length ≤ c) (hds : ∀ d ∈ ds,∃ intr,d = .status (h % n) r intr) :
    Numbered c n r (l ++ ds) := by
  induction ds generalizing l j with
  | nil => simpa using hl
  | cons d ds ih =>
    obtain ⟨intr,rfl⟩ := hds d mem_cons_self
    rw [length_cons] at hln
    have hd : (c * h + j) / c = h := by
      rw [Nat.mul_add_div (by omega),Nat.div_eq_of_lt (by omega),add_zero]
    have ha : Numbered c n r (l ++ [.status (h % n) r intr]) := by
      refine Counted.append hl ?_
      rintro data flag heq
      cases heq
      rw [hc,hd]
    have ho : statuses r [.status (h % n) r intr] = 1 := by simp [statuses,reports]
    rw [append_cons]
    refine ih (j := j + 1) ha ?_ (by omega) (forall_mem_cons.mp hds).2
    rw [statuses_append,hc,ho,add_assoc]

theorem statuses_entry (hds : ∀ d ∈ ds,∃ intr,d = .status slot r intr) :
    statuses r ds = ds.length := by
  apply countP_eq_length.mpr
  intro d hd
  obtain ⟨intr,rfl⟩ := hds d hd
  simp [reports]

theorem Ringed.take (hr : Ringed c r ring h programmed executed)
    (ha : allocateBuffer ring = (some ring.head,mid)) (hl : ds.length = c)
    (hds : ∀ d ∈ ds,∃ intr,d = .status ring.head r intr) :
    Ringed c r (incrHead mid) (h + 1) (programmed ++ ds) executed ∧
    (incrHead mid).size = ring.size := by
  obtain ⟨hs,hsz,-,ht⟩ := hr.tracks.take ha
  have hs' : (incrHead mid).size = ring.size := hsz
  rw [hs] at hds
  refine ⟨⟨ht,?_,?_⟩,hs'⟩
  · rw [statuses_append,statuses_entry hds,hr.taken,hl,Nat.mul_succ]
  · rw [hs']
    exact hr.numbered.append_entry (j := 0) hr.taken (by omega) hds

theorem mem_intrDescs (hd : d ∈ intrDescs cfg i) : ∃ intr,d = .status i .intrRing intr := by
  unfold intrDescs at hd
  split at hd
  · rcases mem_cons.mp hd with rfl | hd
    · exact ⟨false,rfl⟩
    · exact ⟨true,mem_singleton.mp hd⟩
  · exact ⟨true,mem_singleton.mp hd⟩

section
variable (hc : Called cfg start intr polling cb ch ch' copies)
include hc

theorem Called.intr_last :
    ∃ front,ch'.programmed =
        ch.programmed ++ front ++ (if intr then intrDescs cfg ch.intrRing.head else []) ∧
      ∀ d ∈ front,reports .intrRing d = false := by
  refine ⟨copies ++ if polling then [.status ch.pollRing.head .pollRing false] else [],?_,?_⟩
  · rw [hc.programmed]
    simp
  intro d hd
  rcases mem_append.mp hd with hd | hd
  · exact (hc.silent d hd).1
  cases polling with
  | true =>
    rw [mem_singleton.mp hd]
    rfl
  | false => cases hd

theorem Called.intr_ringed
    (hr : Ringed (intrDescs cfg 0).length .intrRing ch.intrRing h ch.programmed ch.executed) :
    Ringed (intrDescs cfg 0).length .intrRing ch'.intrRing (if intr then h + 1 else h)
        ch'.programmed ch'.executed ∧ ch'.intrRing.size = ch.intrRing.size := by
  obtain ⟨front,hp,hf⟩ := hc.intr_last
  have hb := hr.append_other hf
  have hrn := hc.intrRing
  rw [hp,hc.executed]
  cases intr with
  | true =>
    obtain ⟨mid,ha,hrn⟩ := hrn
    rw [hrn]
    exact hb.take ha (length_intrDescs cfg _ 0) (fun d hd => mem_intrDescs hd)
  | false =>
    have hrn : ch'.intrRing = ch.intrRing := hrn
    simp only [Bool.false_eq_true,if_false,append_nil,hrn,and_true]
    exact hb

theorem Called.poll_ringed (hr : Ringed 1 .pollRing ch.pollRing h ch.programmed ch.executed) :
    Ringed 1 .pollRing ch'.pollRing (if polling then h + 1 else h) ch'.programmed ch'.executed ∧
      ch'.pollRing.size = ch.pollRing.size := by
  have hb := hr.append_other (fun d hd => (hc.silent d hd).2)
  have haf : ∀ d ∈ if intr then intrDescs cfg ch.intrRing.head
    else [],reports .pollRing d = false := by
    intro d hd
    cases intr with
    | true =>
      obtain ⟨flag,rfl⟩ := mem_intrDescs hd
      rfl
    | false => cases hd
  have hrn := hc.pollRing
  rw [hc.programmed,hc.executed,← append_assoc]
  cases polling with
  | true =>
    obtain ⟨mid,ha,hrn⟩ := hrn
    rw [hrn]
    have hds : ∀ d ∈ [Desc.status ch.pollRing.head .pollRing false],
        ∃ flag,d = .status ch.pollRing.head .pollRing flag :=
      fun d hd => ⟨false,mem_singleton.mp hd⟩
    obtain ⟨ht,hs⟩ := hb.take ha rfl hds
    exact ⟨ht.append_other haf,hs⟩
  | false =>
    have hrn : ch'.pollRing = ch.pollRing := hrn
    simp only [Bool.false_eq_true,if_false,append_nil,hrn,and_true]
    exact hb.append_other haf

end

section
variable (hq : Queue start ch) (hh : ch.dhpr = ch.nextWriteIndex) (hne : ch.dtpr ≠ ch.dhpr)
include hq hh hne

theorem Queue.next : ch.executed ++ [ch.descRing ch.dtpr] <+: ch.programmed := by
  have hl := hq.order.length_le
  have hlt : ch.executed.length < ch.programmed.length := by
    rcases lt_or_ge ch.executed.length ch.programmed.length with h | h
    · exact h
    · refine absurd ?_ hne
      rw [hh,hq.tail,hq.write,le_antisymm hl h]
  have hg : ch.programmed[ch.executed.length]? = some (ch.programmed.get ⟨_,hlt⟩) :=
    getElem?_eq_getElem hlt
  have hd := hq.kept _ _ le_rfl hg
  rw [← hq.tail] at hd
  rw [hd,prefix_iff_eq_take,length_append,length_singleton,take_add_one,hg,
    ← prefix_iff_eq_take.mp hq.order]
  rfl

theorem Queue.execute (intr poll : ComplBufRing) :
    Queue start { ch with
      intrRing := intr,pollRing := poll,dtpr := incrRbIndex ch.dtpr ch.numDescInRing
      executed := ch.executed ++ [ch.descRing ch.dtpr] } := by
  obtain ⟨c,hc,hcc,hl⟩ := hq.cached
  have hp : (ch.executed ++ [ch.descRing ch.dtpr]).length = ch.executed.length + 1 := by simp
  refine ⟨hq.size,hq.write,?_,hq.next hh hne,?_,c,?_,hcc,hl⟩
  · simp only [hp]
    rw [hq.tail,incrRbIndex_slot,add_assoc]
  · intro k d hk hd
    simp only [hp] at hk
    exact hq.kept k d (by omega) hd
  · simp only [hp]
    omega

end

end Mpss.Proofs.DmaChannel
