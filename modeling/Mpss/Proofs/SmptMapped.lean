import Mathlib.Algebra.Order.BigOperators.Group.List
import Mathlib.Algebra.Order.Group.Nat
import Mathlib.Data.Nat.Find
import Mpss.Library.Runs
import Mpss.Micscif.Smpt

namespace Mpss.Proofs.SmptMapped
open Library.Rows Library.Runs Micscif.Smpt List Function

def span (a b j : Nat) : Nat :=
  min b ((a / micSystemPageSize + j + 1) * micSystemPageSize) -
    max a ((a / micSystemPageSize + j) * micSystemPageSize)

theorem align_high_eq : smptAlignHigh (a + 1) = (a / micSystemPageSize + 1) * micSystemPageSize := by
  unfold smptAlignHigh micSystemPageSize
  omega

theorem refs_span : (getSmptRefCount a b).getD j 0 = span a b j := by
  fun_induction getSmptRefCount a b generalizing j with
  | case1 a hlt ih =>
    cases j with
    | zero =>
      simp only [getD_cons_zero,align_high_eq,span]
      unfold micSystemPageSize
      omega
    | succ j =>
      rw [align_high_eq] at ih
      simp only [getD_cons_succ,align_high_eq,ih,span]
      unfold micSystemPageSize
      omega
  | case2 a hge =>
    simp only [getD_nil,span]
    omega

theorem refs_length (h : a < b) :
    (getSmptRefCount a b).length = (b - 1) / micSystemPageSize - a / micSystemPageSize + 1 := by
  fun_induction getSmptRefCount a b with
  | case1 a hlt ih =>
    rw [align_high_eq] at ih ⊢
    by_cases hn : (a / micSystemPageSize + 1) * micSystemPageSize < b
    · rw [length_cons,ih hn]
      unfold micSystemPageSize at *
      omega
    · rw [getSmptRefCount,if_neg hn,length_singleton]
      unfold micSystemPageSize at *
      omega
  | case2 a hge => exact absurd h hge

theorem refs_pages (hs : 0 < size) : (getSmptRefCount addr (addr + size)).length = pages addr size :=
  refs_length (Nat.lt_add_of_pos_right hs)

theorem s64_eq (h1 : 0 ≤ n) (h2 : n < 2 ^ 63) : s64 n = n := by
  unfold s64
  rw [Int.bmod_eq_of_le] <;> omega

theorem add_same :
    (addEntry ctx i addr ref).micSmpt i =
      { dmaAddr := if (ctx.micSmpt i).refCount = 0 then addr else (ctx.micSmpt i).dmaAddr
        refCount := s64 ((ctx.micSmpt i).refCount + ref) } := by
  simp only [addEntry,update_self]
  by_cases hz : (ctx.micSmpt i).refCount = 0
  · by_cases hd : (ctx.micSmpt i).dmaAddr = addr
    · simp [hz,hd]
    · rw [if_pos ⟨hz,hd⟩,if_pos hz]
      simp only [setAddr]
      split <;> simp [hz]
  · simp [hz]

theorem add_other (h : i ≠ spt) : (addEntry ctx spt addr ref).micSmpt i = ctx.micSmpt i := by
  simp only [addEntry,update_of_ne h]
  split
  · simp only [setAddr]
    split <;> simp [update_of_ne h]
  · rfl

theorem add_entries :
    (addSmptEntry ctx spt addr refs).micSmpt i =
      if spt ≤ i ∧ i < spt + refs.length then
        { dmaAddr := if (ctx.micSmpt i).refCount = 0 then addr + (i - spt) * micSystemPageSize
            else (ctx.micSmpt i).dmaAddr
          refCount := s64 ((ctx.micSmpt i).refCount + (refs.getD (i - spt) 0 : Nat)) }
      else ctx.micSmpt i := by
  induction refs generalizing ctx spt addr with
  | nil => exact (if_neg (by simp)).symm
  | cons ref refs ih =>
    rw [addSmptEntry,ih,length_cons]
    by_cases hi : i = spt
    · subst hi
      have hin : i ≤ i ∧ i < i + (refs.length + 1) := by omega
      rw [if_neg (by omega),if_pos hin,add_same,Nat.sub_self,getD_cons_zero,zero_mul,add_zero]
    rw [add_other hi]
    by_cases hr : spt + 1 ≤ i ∧ i < spt + 1 + refs.length
    · have hin : spt ≤ i ∧ i < spt + (refs.length + 1) := by omega
      obtain ⟨d,rfl⟩ : ∃ d,i = spt + 1 + d := ⟨i - (spt + 1),by omega⟩
      have hd : spt + 1 + d - spt = d + 1 := by omega
      have hd' : spt + 1 + d - (spt + 1) = d := by omega
      have ha : addr + micSystemPageSize + d * micSystemPageSize = addr +
        (d + 1) * micSystemPageSize := by
        rw [add_mul,one_mul]
        omega
      rw [if_pos hr,if_pos hin,hd,hd',getD_cons_succ,ha]
    · rw [if_neg hr,if_neg (by omega)]

theorem drop_entries :
    dropEntries e spt refs i =
      if spt ≤ i ∧ i < spt + refs.length then
        { e i with refCount := s64 ((e i).refCount - (refs.getD (i - spt) 0 : Nat)) }
      else e i := by
  induction refs generalizing e spt with
  | nil => exact (if_neg (by simp)).symm
  | cons ref refs ih =>
    rw [dropEntries,ih,length_cons]
    by_cases hi : i = spt
    · subst hi
      rw [if_neg (by omega),if_pos (by omega),update_self,Nat.sub_self,getD_cons_zero]
    rw [update_of_ne hi]
    by_cases hr : spt + 1 ≤ i ∧ i < spt + 1 + refs.length
    · obtain ⟨d,rfl⟩ : ∃ d,i = spt + 1 + d := ⟨i - (spt + 1),by omega⟩
      have hd : spt + 1 + d - spt = d + 1 := by omega
      have hd' : spt + 1 + d - (spt + 1) = d := by omega
      rw [if_pos hr,if_pos (by omega),hd,hd',getD_cons_succ]
    · rw [if_neg hr,if_neg (by omega)]

/-- The entries from the first one that holds the first address on hold the range, as far as the
table goes. -/
def Unbroken (e : Nat → MicSmpt) (start n : Nat) : Prop :=
  ∀ i,(e i).dmaAddr = start → (∀ k < i,(e k).dmaAddr ≠ start) →
    ∀ j < n,i + j < numSmptEntriesInUse → (e (i + j)).dmaAddr = start + j * micSystemPageSize

section
variable {e : Nat → MicSmpt} (hp : 0 < n)
include hp

theorem entries_found (hf : findEntries micSystemPageSize e n numSmptEntriesInUse start = some k) :
    n ≤ k + 1 ∧ k < numSmptEntriesInUse ∧ Suitable micSystemPageSize e start (k + 1 - n) n := by
  have hx := find_entries micSystemPageSize e numSmptEntriesInUse start (by omega : (n : Int) ≠ 0)
  rw [hf] at hx
  obtain ⟨hle,ht⟩ := hx
  have hft := ht.fits
  have hst := ht.suitable
  rw [show ((k : Int) - n + 1).toNat = k + 1 - n by omega] at hft hst
  exact ⟨by omega,by omega,hst⟩

theorem entries_not_found (hf : findEntries micSystemPageSize e n numSmptEntriesInUse start = none)
    (hu : Unbroken e start n) (hs : spt + n ≤ numSmptEntriesInUse) :
    ¬ Held micSystemPageSize e start spt n ∧ ¬ Free e spt n := by
  classical
  have hx := find_entries micSystemPageSize e numSmptEntriesInUse start (by omega : (n : Int) ≠ 0)
  rw [hf] at hx
  have hend : ∀ s,First e start s → numSmptEntriesInUse < s + n := by
    intro s hfs
    by_contra hle
    exact hx s ⟨by omega,by omega,.inl ⟨hfs,fun j hj => hu s hfs.1 hfs.2 j (by omega) (by omega)⟩⟩
  refine ⟨fun hh => ?_,fun hfr => ?_⟩
  · have h0 : ∃ s,(e s).dmaAddr = start := ⟨spt,by simpa using hh 0 hp⟩
    have hlt := hend (Nat.find h0) ⟨Nat.find_spec h0,fun _ hj => Nat.find_min h0 hj⟩
    have hle := Nat.find_min' h0 (by simpa using hh 0 hp)
    omega
  · have h0 : ∃ s,Free e s n := ⟨spt,hfr⟩
    have hle := Nat.find_min' h0 hfr
    refine hx (Nat.find h0) ⟨by omega,by omega,
      .inr ⟨fun s _ hfs => ?_,Nat.find_spec h0,fun _ hj => Nat.find_min h0 hj⟩⟩
    have hlt := hend s hfs
    exact ⟨fun j hj => hu s hfs.1 hfs.2 j (by omega) (by omega),by omega⟩

end

def Mapping.bytes (m : Mapping) (i : Nat) : Nat :=
  min (m.micAddr + m.size) (smptToMicPa (i + 1)) - max m.micAddr (smptToMicPa i)

def total (live : List Mapping) (i : Nat) : Nat := (live.map (Mapping.bytes · i)).sum

/-- The property of a table with live mappings. -/
structure Mapped (s : Table) : Prop where
  translated : ∀ m ∈ s.live,∀ k < m.size,micToDmaAddr s.ctx (m.micAddr + k) = m.dmaAddr + k
  counted : ∀ i < numSmptEntriesInUse,(s.ctx.micSmpt i).refCount = (total s.live i : Nat)

/-- A live mapping lies inside the table, keeps its offset within a page, and its entries hold the
addresses it asked for. -/
structure Placed (e : Nat → MicSmpt) (m : Mapping) : Prop where
  nonempty : 0 < m.size
  above : micSystemBase ≤ m.micAddr
  inside : m.micAddr + m.size ≤ maxSystemAddr + 1
  aligned : m.micAddr % micSystemPageSize = m.dmaAddr % micSystemPageSize
  held : ∀ i,0 < Mapping.bytes m i → (e i).dmaAddr + m.micAddr = m.dmaAddr + smptToMicPa i

structure Inv (s : Table) : Prop where
  placed : ∀ m ∈ s.live,Placed s.ctx.micSmpt m
  counted : ∀ i < numSmptEntriesInUse,(s.ctx.micSmpt i).refCount = (total s.live i : Nat)
  small : ∀ i < numSmptEntriesInUse,total s.live i < 2 ^ 63

theorem Placed.translate (h : Placed ctx.micSmpt m) (hk : k < m.size) :
    micToDmaAddr ctx (m.micAddr + k) = m.dmaAddr + k := by
  obtain ⟨_,hab,hin,hal,hh⟩ := h
  have hs : isMicSystemAddr (m.micAddr + k) := by
    unfold isMicSystemAddr
    omega
  have hu : 0 < Mapping.bytes m (hostmicPaToSmpt (m.micAddr + k)) := by
    unfold Mapping.bytes smptToMicPa hostmicPaToSmpt micSystemPageSize at *
    omega
  have he := hh _ hu
  rw [micToDmaAddr,if_neg (not_not.mpr hs)]
  unfold hostmicPaToSmpt smptToMicPa smptOffset micSystemBase micSystemPageSize at *
  omega

theorem Placed.congr (h : Placed e m)
    (he : ∀ i,0 < Mapping.bytes m i → (e' i).dmaAddr = (e i).dmaAddr) :
    Placed e' m := { h with held := fun i hu => by rw [he i hu]; exact h.held i hu }

theorem Inv.mapped (h : Inv s) : Mapped s := ⟨fun m hm _ hk => (h.placed m hm).translate hk,h.counted⟩

/-- The references of a range are taken from entry `spt` on. -/
def taken (ctx : MicCtx) (spt start dmaAddr size : Nat) : MicCtx :=
  addSmptEntry ctx spt start (getSmptRefCount dmaAddr (dmaAddr + size))

/-- A `mic_map` fails and changes nothing, or takes the entries that it finds. -/
theorem map_cases (hs : 0 < size) (hm : micMap pm ctx dmaAddr size = (r,ctx')) :
    r = 0 ∧ ctx' = ctx ∧ (pm = true → findEntries micSystemPageSize ctx.micSmpt
    (pages dmaAddr size) numSmptEntriesInUse (smptAlignLow dmaAddr) = none) ∨
    r ≠ 0 ∧ ∃ spt,spt + pages dmaAddr size ≤ numSmptEntriesInUse ∧
      r = smptToMicPa spt + dmaAddr % micSystemPageSize ∧
      Suitable micSystemPageSize ctx.micSmpt (smptAlignLow dmaAddr) spt (pages dmaAddr size) ∧
      ctx' = taken ctx spt (smptAlignLow dmaAddr) dmaAddr size := by
  have hp : 0 < pages dmaAddr size := Nat.succ_pos _
  simp only [micMap,if_neg (by omega : ¬ size = 0),smptOp,refs_pages hs] at hm
  cases pm with
  | false =>
    obtain ⟨rfl,rfl⟩ := Prod.mk.inj hm
    exact .inl ⟨rfl,rfl,by simp⟩
  | true =>
    simp only [Bool.not_true,Bool.false_eq_true,if_false] at hm
    cases hf : findEntries micSystemPageSize ctx.micSmpt (pages dmaAddr size) numSmptEntriesInUse
        (smptAlignLow dmaAddr) with
    | none =>
      rw [hf] at hm
      obtain ⟨rfl,rfl⟩ := Prod.mk.inj hm
      exact .inl ⟨rfl,rfl,fun _ => rfl⟩
    | some k =>
      rw [hf] at hm
      obtain ⟨hge,hlt,hst⟩ := entries_found hp hf
      have hne : smptToMicPa (k + 1 - pages dmaAddr size) ≠ 0 := by
        unfold smptToMicPa micSystemBase
        omega
      simp only [hne,if_false] at hm
      obtain ⟨rfl,rfl⟩ := Prod.mk.inj hm
      exact .inr ⟨by omega,k + 1 - pages dmaAddr size,by omega,rfl,hst,rfl⟩

theorem Inv.used (h : Inv s) (hm : m ∈ s.live) (hu : 0 < Mapping.bytes m i) :
    (s.ctx.micSmpt i).refCount ≠ 0 := by
  have hin := (h.placed m hm).inside
  have hi : i < numSmptEntriesInUse := by
    unfold Mapping.bytes smptToMicPa maxSystemAddr numSmptEntriesInUse micSystemPageSize at *
    omega
  have hle : Mapping.bytes m i ≤ total s.live i :=
    single_le_sum (by simp) _ (mem_map_of_mem hm)
  rw [h.counted i hi]
  omega

theorem span_pos (hs : 0 < size) : 0 < span dmaAddr (dmaAddr + size) j ↔ j < pages dmaAddr size := by
  unfold span pages micSystemPageSize
  omega

theorem span_le (a b j : Nat) : span a b j ≤ micSystemPageSize := by
  unfold span micSystemPageSize
  omega

/-- Room for one more page of references in each entry. -/
def Allowed (s : Table) : Act → Prop
  | .map _ _ _ => ∀ i < numSmptEntriesInUse,(s.ctx.micSmpt i).refCount + micSystemPageSize < 2 ^ 63
  | .unmap _ => True

theorem total_cons : total (m :: live) i = Mapping.bytes m i + total live i := by simp [total]

section
variable (hr : r = smptToMicPa spt + dmaAddr % micSystemPageSize)
include hr

theorem bytes_span (i : Nat) :
    Mapping.bytes ⟨dmaAddr,size,r⟩ i = if spt ≤ i then span dmaAddr (dmaAddr + size)
    (i - spt) else 0 := by
  subst hr
  have hs : dmaAddr / micSystemPageSize * micSystemPageSize +
    dmaAddr % micSystemPageSize = dmaAddr := by
    rw [mul_comm]
    exact Nat.div_add_mod dmaAddr micSystemPageSize
  simp only [Mapping.bytes,span,smptToMicPa]
  generalize micSystemPageSize = p at *
  split
  · obtain ⟨d,rfl⟩ : ∃ d,i = spt + d := ⟨i - spt,by omega⟩
    rw [Nat.add_sub_cancel_left]
    simp only [add_mul,one_mul]
    omega
  · have hle : (i + 1) * p ≤ spt * p := Nat.mul_le_mul_right p (by omega)
    omega

variable (hs : 0 < size)
include hs

theorem uses_iff : 0 < Mapping.bytes ⟨dmaAddr,size,r⟩ i ↔ spt ≤ i ∧ i < spt + pages dmaAddr size := by
  rw [bytes_span hr]
  split
  · rw [span_pos hs]
    omega
  · omega

theorem entry_after :
    (taken ctx spt start dmaAddr size).micSmpt i =
      if 0 < Mapping.bytes ⟨dmaAddr,size,r⟩ i then
        { dmaAddr := if (ctx.micSmpt i).refCount = 0 then start + (i - spt) * micSystemPageSize
            else (ctx.micSmpt i).dmaAddr
          refCount := s64 ((ctx.micSmpt i).refCount + (Mapping.bytes ⟨dmaAddr,size,r⟩ i : Nat)) }
      else ctx.micSmpt i := by
  rw [taken,add_entries,refs_pages hs,refs_span]
  by_cases hu : spt ≤ i ∧ i < spt + pages dmaAddr size
  · rw [if_pos hu,if_pos ((uses_iff hr hs).mpr hu),bytes_span hr,if_pos hu.1]
  · rw [if_neg hu,if_neg ((uses_iff hr hs).not.mpr hu)]

theorem placed_new (hin : spt + pages dmaAddr size ≤ numSmptEntriesInUse)
    (hst : Suitable micSystemPageSize ctx.micSmpt (smptAlignLow dmaAddr) spt (pages dmaAddr size)) :
    Placed (taken ctx spt (smptAlignLow dmaAddr) dmaAddr size).micSmpt ⟨dmaAddr,size,r⟩ := by
  refine ⟨hs,?_,?_,?_,?_⟩
  · rw [hr]
    unfold smptToMicPa
    dsimp only
    omega
  · unfold pages smptToMicPa maxSystemAddr micSystemPageSize at *
    dsimp only
    omega
  · rw [hr]
    unfold smptToMicPa micSystemBase micSystemPageSize
    dsimp only
    omega
  · intro i hi
    have hu := (uses_iff hr hs).mp hi
    have hsi := hst (i - spt) (by omega)
    rw [Nat.add_sub_cancel' hu.1] at hsi
    have hd : (if (ctx.micSmpt i).refCount = 0 then smptAlignLow dmaAddr +
      (i - spt) * micSystemPageSize
        else (ctx.micSmpt i).dmaAddr) = smptAlignLow dmaAddr + (i - spt) * micSystemPageSize := by
      rcases hsi with hz | hz
      · rw [if_pos hz]
      · rw [hz,ite_self]
    rw [entry_after hr hs,if_pos hi]
    dsimp only
    unfold smptAlignLow smptToMicPa micSystemPageSize at *
    omega

theorem Inv.placed_old (h : Inv s) (hm : m ∈ s.live) :
    Placed (taken s.ctx spt start dmaAddr size).micSmpt m := by
  refine (h.placed m hm).congr (fun i hu => ?_)
  rw [entry_after hr hs,if_neg (h.used hm hu)]
  split <;> rfl

theorem Inv.map (h : Inv s) (hok : Allowed s (.map pm dmaAddr size))
    (hin : spt + pages dmaAddr size ≤ numSmptEntriesInUse)
    (hst : Suitable micSystemPageSize s.ctx.micSmpt (smptAlignLow dmaAddr) spt (pages dmaAddr size)) :
    Inv ⟨taken s.ctx spt (smptAlignLow dmaAddr) dmaAddr size,⟨dmaAddr,size,r⟩ :: s.live⟩ := by
  have hrm : ∀ i < numSmptEntriesInUse,Mapping.bytes ⟨dmaAddr,size,r⟩ i + total s.live i < 2 ^ 63 := by
    intro i hi
    have := hok i hi
    have := h.counted i hi
    have := span_le dmaAddr (dmaAddr + size) (i - spt)
    rw [bytes_span hr]
    split <;> omega
  refine ⟨?_,?_,?_⟩
  · intro m hmm
    rcases mem_cons.mp hmm with rfl | hmm
    · exact placed_new hr hs hin hst
    · exact h.placed_old hr hs hmm
  · intro i hi
    have hc := h.counted i hi
    have hlt := hrm i hi
    rw [total_cons,entry_after hr hs]
    split
    · dsimp only
      rw [hc,s64_eq] <;> omega
    · omega
  · intro i hi
    exact hrm i hi

end

theorem entry_unmapped (h : Placed ctx.micSmpt m) (i : Nat) :
    (micUnmap ctx m.micAddr m.size).micSmpt i =
      if 0 < Mapping.bytes m i then
        { ctx.micSmpt i with refCount := s64 ((ctx.micSmpt i).refCount - (Mapping.bytes m i : Nat)) }
      else ctx.micSmpt i := by
  obtain ⟨hs,hab,hi,_,_⟩ := h
  have hsy : isMicSystemAddr m.micAddr := by
    unfold isMicSystemAddr
    omega
  have hm : m.micAddr = smptToMicPa (hostmicPaToSmpt m.micAddr) + m.micAddr % micSystemPageSize := by
    unfold smptToMicPa hostmicPaToSmpt micSystemBase micSystemPageSize at *
    omega
  have hb : Mapping.bytes m i = Mapping.bytes ⟨m.micAddr,m.size,m.micAddr⟩ i := rfl
  rw [micUnmap,if_neg (by omega : ¬ m.size = 0),if_neg (not_not.mpr hsy)]
  dsimp only
  rw [drop_entries,refs_pages hs,refs_span,hb]
  by_cases hu : hostmicPaToSmpt m.micAddr ≤ i ∧ i < hostmicPaToSmpt m.micAddr + pages m.micAddr m.size
  · rw [if_pos hu,if_pos ((uses_iff hm hs).mpr hu),bytes_span hm,if_pos hu.1]
  · rw [if_neg hu,if_neg ((uses_iff hm hs).not.mpr hu)]

theorem Inv.unmap (h : Inv s) (hm : m ∈ s.live) :
    Inv { ctx := micUnmap s.ctx m.micAddr m.size,live := s.live.erase m } := by
  have he := entry_unmapped (h.placed m hm)
  have htt : ∀ i,total s.live i = Mapping.bytes m i + total (s.live.erase m) i := by
    intro i
    have hp := ((perm_cons_erase hm).map (Mapping.bytes · i)).sum_eq
    simpa [total] using hp
  refine ⟨?_,?_,?_⟩
  · intro q hq
    refine (h.placed q (mem_of_mem_erase hq)).congr (fun i _ => ?_)
    rw [he]
    split <;> rfl
  · intro i hi
    have hc := h.counted i hi
    have hsm := h.small i hi
    have ht := htt i
    dsimp only
    rw [he]
    split
    · dsimp only
      rw [s64_eq] <;> omega
    · omega
  · intro i hi
    have hsm := h.small i hi
    have ht := htt i
    dsimp only
    omega

theorem Inv.init : Inv (Table.init family sbox) := by
  refine ⟨by simp [Table.init],?_,?_⟩
  · intro i _
    rfl
  · intro i _
    change 0 < 2 ^ 63
    omega

theorem Inv.act (h : Inv s) (hok : Allowed s a) (ha : s.act a = some t) : Inv t := by
  cases a with
  | map pm dmaAddr size =>
    obtain ⟨hg,ha⟩ := Option.ite_none_right_eq_some.mp ha
    cases ha
    cases hm : micMap pm s.ctx dmaAddr size with
    | mk r ctx' =>
      simp only [Micscif.Smpt.mapped]
      rcases map_cases hg.1 hm with ⟨rfl,rfl,_⟩ | ⟨hne,spt,hin,hr,hst,rfl⟩
      · exact h
      · rw [if_neg hne]
        exact h.map hr hg.1 hok hin hst
  | unmap m => exact of_guard ha h.unmap

/-- If a run of entries is usable at all, one is all free or holds all of the range. -/
def Unmixed (e : Nat → MicSmpt) (start n : Nat) : Prop :=
  (∃ spt,spt + n ≤ numSmptEntriesInUse ∧ Suitable micSystemPageSize e start spt n) →
    ∃ spt,spt + n ≤ numSmptEntriesInUse ∧ (Free e spt n ∨ Held micSystemPageSize e start spt n)

/-- Every live mapping translates and every entry counts its bytes; where no partial match ends the
search, failures are real. -/
theorem smpt_translations_valid (family : Family) (sbox : Nat → Nat) (as : List Act) (s : Table)
    (hok : Along Table.act Allowed (Table.init family sbox) as)
    (he : exec Table.act (Table.init family sbox) as = some s) :
    Mapped s ∧ ∀ pm dmaAddr size,Mappable dmaAddr size → (micMap pm s.ctx dmaAddr size).1 = 0 →
      (micMap pm s.ctx dmaAddr size).2 = s.ctx ∧
      (pm = true → Unbroken s.ctx.micSmpt (smptAlignLow dmaAddr) (pages dmaAddr size) →
        Unmixed s.ctx.micSmpt (smptAlignLow dmaAddr) (pages dmaAddr size) →
        ¬ ∃ spt,spt + pages dmaAddr size ≤ numSmptEntriesInUse ∧
          Suitable micSystemPageSize s.ctx.micSmpt (smptAlignLow dmaAddr) spt
          (pages dmaAddr size)) := by
  have h : Inv s := exec_invariant (fun _ _ _ h hok ha => h.act hok ha) (Inv.init) hok he
  refine ⟨h.mapped,?_⟩
  intro pm dmaAddr size hg hz
  cases hm : micMap pm s.ctx dmaAddr size with
  | mk r ctx' =>
    rw [hm] at hz
    subst hz
    obtain ⟨_,hs,hn⟩ := (map_cases hg.1 hm).resolve_right (fun hf => hf.1 rfl)
    refine ⟨hs,?_⟩
    intro hpm hu hx hr
    obtain ⟨spt,hle,hc⟩ := hx hr
    have hno := entries_not_found (Nat.succ_pos _) (hn hpm) hu hle
    exact hc.elim hno.2 hno.1

/-- One byte more of page 32, in entry 0. -/
def sharing (s : Table) (k : Nat) : Table :=
  { ctx := addSmptEntry s.ctx 0 (32 * micSystemPageSize) [1]
    live := ⟨32 * micSystemPageSize + k,1,micSystemBase + k⟩ :: s.live }

def firstMapping : Table := sharing (Table.init .knc fun _ => 0) 0

theorem act_sharing (s : Table) (k : Nat) (hk : k < micSystemPageSize)
    (hf : findEntries micSystemPageSize s.ctx.micSmpt 1 numSmptEntriesInUse
    (32 * micSystemPageSize) = some 0) :
    s.act (.map true (32 * micSystemPageSize + k) 1) = some (sharing s k) := by
  set d := 32 * micSystemPageSize + k with hd
  have hr : getSmptRefCount d (d + 1) = [1] := by
    have hh := align_high_gt d
    rw [getSmptRefCount,if_pos (Nat.lt_succ_self _),getSmptRefCount,if_neg (by omega),
      Nat.min_eq_right (by omega),Nat.add_sub_cancel_left]
  have hl : smptAlignLow d = 32 * micSystemPageSize := by
    unfold smptAlignLow micSystemPageSize at *
    omega
  have ho : smptOffset d = k := by
    unfold smptOffset micSystemPageSize at *
    omega
  have hg : Mappable d 1 := by
    unfold Mappable pages numSmptEntriesInUse micSystemPageSize at *
    omega
  have hm : micMap true s.ctx d 1 = (micSystemBase + k,(sharing s k).ctx) := by
    simp only [micMap,smptOp,hr,hl,ho,length_singleton,Nat.cast_one,hf]
    rfl
  simpa [Table.act,hg,hm,mapped,sharing,micSystemBase] using hd

theorem act_first : (Table.init .knc fun _ => 0).act (.map true (32 * micSystemPageSize) 1) =
    some firstMapping :=
  act_sharing _ 0 (by decide) (by decide)

theorem shared_page_valid : Mapped (sharing firstMapping 1) := by
  refine (smpt_translations_valid .knc (fun _ => 0)
    [.map true (32 * micSystemPageSize) 1,.map true (32 * micSystemPageSize + 1) 1] _ ?_ ?_).1
  · refine ⟨fun i _ => ?_,fun t ht => ⟨?_,fun _ _ => trivial⟩⟩
    · change (0 : Int) + micSystemPageSize < 2 ^ 63
      decide
    · cases act_first.symm.trans ht
      change ∀ i < 32,(firstMapping.ctx.micSmpt i).refCount + (micSystemPageSize : Int) < 2 ^ 63
      decide
  · simp only [exec,act_first,act_sharing firstMapping 1 (by decide) (by decide),Option.bind_some]

/-- A mapping behind the first one finds its first page in entry 0 and gives up at entry 1, although
all others are free. -/
theorem partial_match_fails :
    exec Table.act (Table.init .knc fun _ => 0) [.map true (32 * micSystemPageSize) 1] =
      some firstMapping ∧ Mappable (32 * micSystemPageSize) (micSystemPageSize + 1) ∧
      (micMap true firstMapping.ctx (32 * micSystemPageSize) (micSystemPageSize + 1)).1 = 0 ∧
      ∃ spt,spt + pages (32 * micSystemPageSize) (micSystemPageSize + 1) ≤ numSmptEntriesInUse ∧
        Suitable micSystemPageSize firstMapping.ctx.micSmpt (smptAlignLow (32 * micSystemPageSize))
          spt (pages (32 * micSystemPageSize) (micSystemPageSize + 1)) := by
  refine ⟨by rw [exec,act_first]; rfl,by decide,?_,1,by decide,?_⟩
  · have hl : (getSmptRefCount (32 * micSystemPageSize)
        (32 * micSystemPageSize + (micSystemPageSize + 1))).length = 2 := refs_pages (by decide)
    simp only [micMap,smptOp,hl]
    rfl
  · intro j hj
    have hj : j < 2 := hj
    left
    obtain rfl | rfl : j = 0 ∨ j = 1 := by omega
    all_goals rfl

end Mpss.Proofs.SmptMapped
