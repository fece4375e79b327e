import Mpss.Library.Runs
import Mpss.X200.Alut

namespace Mpss.Proofs.AlutMapped
open Library.Rows Library.Runs X200.Alut List Option

def pages (addr size : Nat) : Nat := (addr + size - 1) / alutEntrySize - addr / alutEntrySize + 1

theorem count_entries (h : a < b) :
    countEntries a b = (b - 1) / alutEntrySize - a / alutEntrySize + 1 := by
  fun_induction countEntries a b with
  | case1 a hlt ih =>
    have he : micAlutAlignHigh (a + 1) = (a / alutEntrySize + 1) * alutEntrySize := by
      unfold micAlutAlignHigh alutEntrySize
      omega
    rw [he] at ih ⊢
    by_cases hn : (a / alutEntrySize + 1) * alutEntrySize < b
    · unfold alutEntrySize at *
      omega
    · rw [countEntries,if_neg hn]
      unfold alutEntrySize at *
      omega
  | case2 a hge => exact absurd h hge

theorem ref_count_eq (hs : 0 < size) : micGetAlutRefCount addr size = toInt (pages addr size) := by
  unfold micGetAlutRefCount pages
  rw [count_entries (by omega)]

theorem toInt_eq (n : Nat) (h : n < 2 ^ 32) : toInt n = n ∧ n < 2 ^ 31 ∨ toInt n < 0 ∧ 2 ^ 31 ≤ n := by
  unfold toInt
  split <;> omega

@[simp] theorem setEntry_same : setEntry e i a i = a := by simp [setEntry]

theorem setEntry_other (h : j ≠ i) : setEntry e i a j = e j := by simp [setEntry,h]

/-- Taking entries: one more reference each, and a new address only where nobody held one. -/
theorem add_entry :
    micAddAlutEntry e spt addr n i =
      if spt ≤ i ∧ i < spt + n then
        { dmaAddr := if (e i).refCount = 0 then addr + (i - spt) * alutEntrySize else (e i).dmaAddr
          refCount := (e i).refCount + 1 }
      else e i := by
  induction n generalizing e spt addr with
  | zero => exact (if_neg (by omega)).symm
  | succ n ih =>
    rw [micAddAlutEntry,ih]
    by_cases hi : i = spt
    · subst hi
      by_cases hz : (e i).refCount = 0
      · by_cases hd : (e i).dmaAddr = addr <;> simp [hz,hd]
      · simp [hz]
    rw [setEntry_other hi]
    by_cases hr : spt + 1 ≤ i ∧ i < spt + 1 + n
    · have hin : spt ≤ i ∧ i < spt + (n + 1) := by omega
      rw [if_pos hr,if_pos hin]
      have he : addr + alutEntrySize + (i - (spt + 1)) * alutEntrySize =
          addr + (i - spt) * alutEntrySize := by
        unfold alutEntrySize
        omega
      rw [he]
    · rw [if_neg hr,if_neg (by omega)]

theorem drop_entries :
    dropEntries e spt n i =
      if spt ≤ i ∧ i < spt + n then { e i with refCount := (e i).refCount - 1 } else e i := by
  induction n generalizing e spt with
  | zero => exact (if_neg (by omega)).symm
  | succ n ih =>
    rw [dropEntries,ih]
    by_cases hi : i = spt
    · subst hi
      rw [if_neg (by omega),if_pos (by omega),setEntry_same]
    · rw [setEntry_other hi]
      by_cases hr : spt + 1 ≤ i ∧ i < spt + 1 + n
      · rw [if_pos hr,if_pos (by omega)]
      · rw [if_neg hr,if_neg (by omega)]

/-- The entries that the card addresses of a mapping fall into. -/
def Mapping.Uses (m : Mapping) (i : Nat) : Prop :=
  i * alutEntrySize < m.micAddr + m.size ∧ m.micAddr < (i + 1) * alutEntrySize
deriving Decidable

structure Mapped (start : Nat → Int) (s : Table) : Prop where
  translated : ∀ m ∈ s.live,∀ k < m.size,micToDmaAddr s.alut (m.micAddr + k) = m.dmaAddr + k
  counted : ∀ i < alutEntryCount,
    (s.alut.entry i).refCount = start i + (s.live.countP (fun m => decide (Mapping.Uses m i)) : Nat)
  restored : s.live = [] → ∀ i < alutEntryCount,(s.alut.entry i).refCount = start i

/-- A live mapping lies inside the table, keeps its offset within an entry, and its
entries hold the addresses it asked for. -/
structure Placed (e : Nat → MicAlut) (m : Mapping) : Prop where
  nonempty : 0 < m.size
  inside : m.micAddr + m.size ≤ micAlutSize
  aligned : m.micAddr % alutEntrySize = m.dmaAddr % alutEntrySize
  held : ∀ i,Mapping.Uses m i → (e i).dmaAddr + m.micAddr = m.dmaAddr + i * alutEntrySize

structure Inv (start : Nat → Int) (s : Table) : Prop where
  placed : ∀ m ∈ s.live,Placed s.alut.entry m
  counted : ∀ i < alutEntryCount,
    (s.alut.entry i).refCount = start i + (s.live.countP (fun m => decide (Mapping.Uses m i)) : Nat)

theorem Placed.translate (h : Placed alut.entry m) (hk : k < m.size) :
    micToDmaAddr alut (m.micAddr + k) = m.dmaAddr + k := by
  have hin := h.inside
  have hi : micSysAddrToAlut (m.micAddr + k) = (m.micAddr + k) / alutEntrySize := by
    apply Nat.mod_eq_of_lt
    unfold micAlutSize alutEntryCount alutEntrySize at *
    omega
  have hu : Mapping.Uses m ((m.micAddr + k) / alutEntrySize) := by
    unfold Mapping.Uses alutEntrySize
    omega
  have he := h.held _ hu
  unfold micToDmaAddr micAlutOffset
  rw [hi]
  unfold alutEntrySize at *
  omega

theorem Inv.mapped (h : Inv start s) : Mapped start s := by
  refine ⟨fun m hm k hk => (h.placed m hm).translate hk,h.counted,?_⟩
  intro hl i hi
  rw [h.counted i hi,hl]
  simp

theorem uses_iff (hs : 0 < m.size) :
    Mapping.Uses m i ↔
      m.micAddr / alutEntrySize ≤ i ∧ i < m.micAddr / alutEntrySize + pages m.micAddr m.size := by
  unfold Mapping.Uses pages alutEntrySize
  omega

theorem pages_congr (hs : 0 < size) (h : a % alutEntrySize = b % alutEntrySize) :
    pages a size = pages b size := by
  unfold pages alutEntrySize at *
  omega

theorem map_found (hs : 0 < size) (hf : pages dmaAddr size < 2 ^ 32)
    (hm : micMap alut dmaAddr size = (some micAddr,alut')) :
    ∃ spt,spt + pages dmaAddr size ≤ alutEntryCount ∧
      micAddr = spt * alutEntrySize + dmaAddr % alutEntrySize ∧
      Suitable alutEntrySize alut.entry (micAlutAlignLow dmaAddr) spt (pages dmaAddr size) ∧
      alut'.entry = micAddAlutEntry alut.entry spt (micAlutAlignLow dmaAddr) (pages dmaAddr size) := by
  have hp : 0 < pages dmaAddr size := Nat.succ_pos _
  have hne : toInt (pages dmaAddr size) ≠ 0 := by
    have := toInt_eq _ hf
    omega
  have hx := find_entries alutEntrySize alut.entry alutEntryCount (micAlutAlignLow dmaAddr) hne
  simp only [micMap,if_neg (by omega : ¬ size = 0),micAlutOp,ref_count_eq hs] at hm
  split at hm
  · cases hm
  rename_i k hk
  rw [hk] at hx
  obtain ⟨hge,ht⟩ := hx
  have hps := ht.pos
  have hft := ht.fits
  have hn : toInt (pages dmaAddr size) = pages dmaAddr size := by
    have := toInt_eq _ hf
    omega
  have hst := ht.suitable
  rw [hn] at hst hge hft hm
  generalize ((k : Int) - (pages dmaAddr size : Nat) + 1).toNat = spt at *
  simp only [map_some,Int.toNat_natCast,Prod.mk.injEq,some.injEq] at hm hst
  obtain ⟨ha,he⟩ := hm
  refine ⟨spt,by omega,?_,hst,?_⟩
  · rw [← ha]
    unfold micAlutToPa micAlutOffset
    rw [Nat.mod_eq_of_lt]
    unfold alutEntryCount at hft
    omega
  · rw [← he]

theorem map_none (hs : 0 < size) (hm : micMap alut dmaAddr size = (none,alut')) : alut' = alut := by
  simp only [micMap,if_neg (by omega : ¬ size = 0),micAlutOp] at hm
  split at hm
  · cases hm
    rfl
  · cases hm

theorem Inv.used (h : Inv start s) (hst : ∀ i,0 ≤ start i) (hm : m ∈ s.live)
    (hu : Mapping.Uses m i) : (s.alut.entry i).refCount ≠ 0 := by
  have hin := (h.placed m hm).inside
  have hi : i < alutEntryCount := by
    have := lt_of_lt_of_le hu.1 hin
    exact Nat.lt_of_mul_lt_mul_right this
  have hc : 0 < s.live.countP (fun m => decide (Mapping.Uses m i)) :=
    countP_pos_iff.mpr ⟨m,hm,by simpa using hu⟩
  have := h.counted i hi
  have := hst i
  omega

theorem Inv.map (h : Inv start s) (hst : ∀ i,0 ≤ start i) (hs : 0 < size)
    (hf : pages dmaAddr size < 2 ^ 32) (hm : micMap s.alut dmaAddr size = (some micAddr,alut')) :
    Inv start { alut := alut',live := ⟨dmaAddr,size,micAddr⟩ :: s.live } := by
  obtain ⟨spt,hin,ha,hsu,he⟩ := map_found hs hf hm
  have hmd : micAddr % alutEntrySize = dmaAddr % alutEntrySize := by
    unfold alutEntrySize at *
    omega
  have hdv : micAddr / alutEntrySize = spt := by
    unfold alutEntrySize at *
    omega
  have hp : pages micAddr size = pages dmaAddr size := pages_congr hs hmd
  have hus : ∀ i,Mapping.Uses ⟨dmaAddr,size,micAddr⟩ i ↔
      spt ≤ i ∧ i < spt + pages dmaAddr size := by
    intro i
    rw [uses_iff hs]
    simp [hdv,hp]
  refine ⟨?_,?_⟩
  · intro m hmm
    rcases mem_cons.mp hmm with rfl | hmm
    · refine ⟨hs,?_,hmd,?_⟩
      · unfold pages micAlutSize alutEntrySize at *
        dsimp only
        omega
      intro i hu
      have hr := (hus i).mp hu
      have hsi := hsu (i - spt) (by omega)
      have hii : spt + (i - spt) = i := by omega
      rw [hii] at hsi
      have hd : (alut'.entry i).dmaAddr = micAlutAlignLow dmaAddr + (i - spt) * alutEntrySize := by
        rw [he,add_entry,if_pos hr]
        rcases hsi with hz | hz
        all_goals simp [hz]
      dsimp only
      unfold micAlutAlignLow alutEntrySize at *
      omega
    · have ho := h.placed m hmm
      refine { ho with held := ?_ }
      intro i hu
      have hne := h.used hst hmm hu
      have hd : (alut'.entry i).dmaAddr = (s.alut.entry i).dmaAddr := by
        rw [he,add_entry,if_neg hne]
        split <;> rfl
      rw [hd]
      exact ho.held i hu
  · intro i hi
    have hr : (alut'.entry i).refCount = (s.alut.entry i).refCount +
        (if spt ≤ i ∧ i < spt + pages dmaAddr size then 1 else 0) := by
      rw [he,add_entry]
      split <;> simp
    simp only [countP_cons,decide_eq_true_eq,hus]
    rw [hr,h.counted i hi]
    split <;> simp [add_assoc]

theorem Inv.unmap (h : Inv start s) (hm : m ∈ s.live) :
    Inv start { alut := micUnmap s.alut m.micAddr m.size,live := s.live.erase m } := by
  have hp := h.placed m hm
  have hs : micSysAddrToAlut m.micAddr = m.micAddr / alutEntrySize := by
    have := hp.inside
    have := hp.nonempty
    apply Nat.mod_eq_of_lt
    unfold micAlutSize alutEntryCount alutEntrySize at *
    omega
  have hn : (micGetAlutRefCount m.micAddr m.size).toNat = pages m.micAddr m.size := by
    have hle : pages m.micAddr m.size ≤ alutEntryCount := by
      have := hp.inside
      unfold pages micAlutSize alutEntryCount alutEntrySize at *
      omega
    rw [ref_count_eq hp.nonempty]
    unfold alutEntryCount at hle
    rcases toInt_eq (pages m.micAddr m.size) (by omega) with ⟨ht,_⟩ | ⟨_,hb⟩
    · rw [ht,Int.toNat_natCast]
    · omega
  have he : ∀ i,(micUnmap s.alut m.micAddr m.size).entry i =
      if Mapping.Uses m i then { s.alut.entry i with refCount := (s.alut.entry i).refCount - 1 }
      else s.alut.entry i := by
    intro i
    have hne : ¬ m.size = 0 := by
      have := hp.nonempty
      omega
    simp [micUnmap,hne,drop_entries,hs,hn,uses_iff hp.nonempty]
  refine ⟨?_,?_⟩
  · intro q hq
    have ho := h.placed q (mem_of_mem_erase hq)
    refine { ho with held := ?_ }
    intro i hu
    have := ho.held i hu
    rw [he]
    split <;> exact this
  · intro i hi
    have hc : s.live.countP (fun m => decide (Mapping.Uses m i)) =
        (s.live.erase m).countP (fun m => decide (Mapping.Uses m i)) +
          if Mapping.Uses m i then 1 else 0 := by
      rw [(perm_cons_erase hm).countP_eq,countP_cons]
      simp
    have := h.counted i hi
    rw [he]
    rw [hc] at this
    split_ifs with hu
    · simp only [hu,if_true] at this
      dsimp only
      omega
    · simp only [hu,if_false,add_zero] at this
      exact this

theorem Inv.init (peerCount netPeerCount : Nat) :
    Inv (fun i => (initEntry (identityMapEntries peerCount netPeerCount) i).refCount)
      (Table.init peerCount netPeerCount) :=
  ⟨by simp [Table.init],by simp [Table.init,micAlutInit]⟩

theorem init_refCount_nonneg (identity i : Nat) : 0 ≤ (initEntry identity i).refCount := by
  unfold initEntry
  split <;> simp

/-- The number of entries of the range fits in 32 bits. -/
def Countable : Act → Prop
  | .map dmaAddr size => pages dmaAddr size < 2 ^ 32
  | .unmap _ => True

theorem Inv.act (hst : ∀ i,0 ≤ start i) (h : Inv start s) (hc : Countable a)
    (ha : s.act a = some t) : Inv start t := by
  cases a with
  | map dmaAddr size =>
    obtain ⟨hg,ha⟩ := ite_none_right_eq_some.mp ha
    split at ha
    · rename_i micAddr alut hm
      cases ha
      exact h.map hst hg.1 hc hm
    · rename_i alut hm
      cases ha
      rw [map_none hg.1 hm]
      exact h
  | unmap m => exact of_guard ha h.unmap

/-- Every live mapping keeps its translation and every entry its count of references. -/
theorem alut_translations_valid (peerCount netPeerCount : Nat) (as : List Act) (s : Table)
    (hc : Along Table.act (fun _ a => Countable a) (Table.init peerCount netPeerCount) as)
    (he : exec Table.act (Table.init peerCount netPeerCount) as = some s) :
    Mapped (fun i => ((Table.init peerCount netPeerCount).alut.entry i).refCount) s := by
  have hst := init_refCount_nonneg (identityMapEntries peerCount netPeerCount)
  exact (exec_invariant (fun _ _ _ hi hc ha => Inv.act hst hi hc ha)
    (Inv.init peerCount netPeerCount) hc he).mapped

/-- One more mapping in entry 0, which holds address zero. -/
def sharing (s : Table) (dmaAddr size : Nat) : Table :=
  { alut :=
      { entry := micAddAlutEntry s.alut.entry 0 0 1
        refCount := s.alut.refCount + 1
        mapCount := s.alut.mapCount + 1
        unmapCount := s.alut.unmapCount }
    live := ⟨dmaAddr,size,dmaAddr⟩ :: s.live }

theorem act_sharing (s : Table) (dmaAddr size : Nat) (h0 : (s.alut.entry 0).dmaAddr = 0)
    (hd : dmaAddr < alutEntrySize) (hs : 0 < size) (hr : dmaAddr + size + alutEntrySize ≤ 2 ^ 64)
    (hc : toInt (pages dmaAddr size) = 1) :
    s.act (.map dmaAddr size) = some (sharing s dmaAddr size) := by
  have hn : micGetAlutRefCount dmaAddr size = 1 := (ref_count_eq hs).trans hc
  have hf : findEntries alutEntrySize s.alut.entry 1 alutEntryCount 0 = some 0 := by
    simp [findEntries,alutEntryCount,findExisting,h0]
  have hl : micAlutAlignLow dmaAddr = 0 := by simp [micAlutAlignLow,Nat.mod_eq_of_lt hd]
  have hm : micMap s.alut dmaAddr size = (some dmaAddr,(sharing s dmaAddr size).alut) := by
    simp [micMap,ne_of_gt hs,hl,hn,micAlutOp,hf,micAlutToPa,micAlutOffset,Nat.mod_eq_of_lt hd,sharing]
  rw [Table.act,if_pos ⟨hs,hr⟩,hm]
  rfl

theorem shared_entry_valid :
    Mapped (fun i => ((Table.init 1 0).alut.entry i).refCount)
      (sharing (sharing (Table.init 1 0) 0 4096) 4096 4096) := by
  have h1 := act_sharing (Table.init 1 0) 0 4096 rfl (by decide) (by decide) (by decide) (by decide)
  have h2 := act_sharing (sharing (Table.init 1 0) 0 4096) 4096 4096 rfl (by decide) (by decide)
    (by decide) (by decide)
  refine alut_translations_valid 1 0 [.map 0 4096,.map 4096 4096] _
    ⟨?_,fun _ _ => ⟨?_,fun _ _ => trivial⟩⟩ ?_
  · change pages 0 4096 < 2 ^ 32
    decide
  · change pages 4096 4096 < 2 ^ 32
    decide
  · simp only [exec,h1,h2,Option.bind_some]

/-- A range of `2 ^ 32 + 1` entries counts as one: only its first entry translates. -/
theorem alut_count_wraps :
    exec Table.act (Table.init 1 0) [.map 0 (2 ^ 63 + 1)] = some (sharing (Table.init 1 0) 0
    (2 ^ 63 + 1)) ∧
      ¬ Mapped (fun i => ((Table.init 1 0).alut.entry i).refCount)
      (sharing (Table.init 1 0) 0 (2 ^ 63 + 1)) := by
  refine ⟨?_,fun h => ?_⟩
  · rw [exec,act_sharing _ _ _ rfl (by decide) (by decide) (by decide) (by decide)]
    rfl
  · have hk := h.translated ⟨0,2 ^ 63 + 1,0⟩ mem_cons_self (247 * alutEntrySize) (by decide)
    revert hk
    decide

end Mpss.Proofs.AlutMapped
