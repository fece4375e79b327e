import Mpss.Proofs.AlutMapped

namespace Mpss.Proofs.AlutReported
open Library.Rows X200.Alut AlutMapped

/-- `mic_map` returns, tells failures from successes, changes nothing when it fails, and does not
fail where enough free entries follow each other. -/
def Right (s : Table) (dmaAddr size : Nat) : Prop :=
  ∃ t,s.act (.map dmaAddr size) = some t ∧
    (micMapError (micMapReturned s.alut dmaAddr size) ↔ (micMap s.alut dmaAddr size).1 = none) ∧
    ((micMap s.alut dmaAddr size).1 = none → t = s) ∧
    ∀ i,i + pages dmaAddr size ≤ alutEntryCount → Free s.alut.entry i (pages dmaAddr size) →
      (micMap s.alut dmaAddr size).1 ≠ none

/-- The count of entries ends and does not wrap to zero. Entries are taken, not at the start of the
table for a range that starts with an entry; or there are none, not even free ones, and the range
starts with an entry. -/
def Reportable (e : Nat → MicAlut) (dmaAddr size : Nat) : Prop :=
  let entries := micGetAlutRefCount dmaAddr size
  let taken := Taken alutEntrySize e entries alutEntryCount (micAlutAlignLow dmaAddr)
  dmaAddr + size + alutEntrySize ≤ 2 ^ 64 ∧ entries ≠ 0 ∧
    ((∃ spt,taken spt ∧ (spt ≠ 0 ∨ micAlutOffset dmaAddr ≠ 0)) ∨
      (∀ spt,¬ taken spt) ∧ micAlutOffset dmaAddr = 0 ∧
        ∀ i,i + pages dmaAddr size ≤ alutEntryCount → ¬ Free e i (pages dmaAddr size))

section
variable (hs : 0 < size) (hr : dmaAddr + size + alutEntrySize ≤ 2 ^ 64)
include hs hr

theorem right_of_none (hn : (micMap s.alut dmaAddr size).1 = none) :
    Right s dmaAddr size ↔ micAlutOffset dmaAddr = 0 ∧
      ∀ i,i + pages dmaAddr size ≤ alutEntryCount → ¬ Free s.alut.entry i (pages dmaAddr size) := by
  have hm : micMap s.alut dmaAddr size = (none,s.alut) := by
    have hp : micMap s.alut dmaAddr size = (none,(micMap s.alut dmaAddr size).2) := Prod.ext hn rfl
    rw [hp,map_none hs hp]
  have ha : s.act (.map dmaAddr size) = some s := by rw [Table.act,if_pos ⟨hs,hr⟩,hm]
  simp [Right,ha,hm,micMapReturned,micMapError,ne_of_gt hs]

theorem right_of_some (hm : (micMap s.alut dmaAddr size).1 = some micAddr) :
    Right s dmaAddr size ↔ micAddr ≠ 0 := by
  have hp : micMap s.alut dmaAddr size = (some micAddr,(micMap s.alut dmaAddr size).2) :=
    Prod.ext hm rfl
  have ha : s.act (.map dmaAddr size) =
      some { alut := (micMap s.alut dmaAddr size).2,live := ⟨dmaAddr,size,micAddr⟩ :: s.live } := by
    rw [Table.act,if_pos ⟨hs,hr⟩,hp]
  simp [Right,ha,hm,micMapReturned,micMapError]

end

theorem map_address (alut : MicAlutInfo) (dmaAddr : Nat) (hs : 0 < size) :
    (micMap alut dmaAddr size).1 =
      (findEntries alutEntrySize alut.entry (micGetAlutRefCount dmaAddr size) alutEntryCount
        (micAlutAlignLow dmaAddr)).map
        (fun i : Nat => micAlutToPa ((i : Int) - micGetAlutRefCount dmaAddr size + 1).toNat +
          micAlutOffset dmaAddr) := by
  rw [micMap,if_neg (ne_of_gt hs),micAlutOp]
  cases findEntries alutEntrySize alut.entry (micGetAlutRefCount dmaAddr size) alutEntryCount
    (micAlutAlignLow dmaAddr) with
  | none | some i => rfl

/-- The condition is enough; apart from the count that wraps to zero it is what is needed. -/
theorem map_reports_failures (s : Table) (dmaAddr size : Nat) (hs : 0 < size) :
    (Reportable s.alut.entry dmaAddr size → Right s dmaAddr size) ∧
    (Right s dmaAddr size → micGetAlutRefCount dmaAddr size ≠ 0 →
      Reportable s.alut.entry dmaAddr size) := by
  by_cases hr : dmaAddr + size + alutEntrySize ≤ 2 ^ 64
  · by_cases hne : micGetAlutRefCount dmaAddr size = 0
    · exact ⟨fun h => absurd hne h.2.1,fun _ h => absurd hne h⟩
    have hx := find_entries alutEntrySize s.alut.entry alutEntryCount (micAlutAlignLow dmaAddr) hne
    have hm := map_address s.alut dmaAddr hs
    cases hf : findEntries alutEntrySize s.alut.entry (micGetAlutRefCount dmaAddr size)
      alutEntryCount (micAlutAlignLow dmaAddr) with
    | none =>
      rw [hf] at hx hm
      rw [right_of_none hs hr hm]
      refine ⟨?_,fun h _ => ⟨hr,hne,.inr ⟨hx,h⟩⟩⟩
      rintro ⟨_,_,⟨spt,ht,_⟩ | ⟨_,h⟩⟩
      · exact absurd ht (hx spt)
      · exact h
    | some k =>
      rw [hf] at hx hm
      rw [Option.map_some] at hm
      obtain ⟨_,ht⟩ := hx
      have hft := ht.fits
      have hp := ht.pos
      rw [right_of_some hs hr hm]
      generalize ((k : Int) - micGetAlutRefCount dmaAddr size + 1).toNat = spt at *
      have hz : micAlutToPa spt + micAlutOffset dmaAddr ≠ 0 ↔ spt ≠ 0 ∨ micAlutOffset dmaAddr ≠ 0 := by
        unfold micAlutToPa alutEntryCount alutEntrySize at *
        omega
      rw [hz]
      refine ⟨?_,fun h _ => ⟨hr,hne,.inl ⟨spt,ht,h⟩⟩⟩
      rintro ⟨_,_,⟨spt',ht',h⟩ | ⟨h,_⟩⟩
      · rwa [ht.unique ht']
      · exact absurd ht (h spt)
  · refine ⟨fun h => absurd h.1 hr,?_⟩
    rintro ⟨t,ha,_⟩
    rw [Table.act,if_neg (fun h => hr h.2)] at ha
    cases ha

theorem first_mapping_reported : Right (Table.init 1 0) (2 ^ 31) 1 := by
  have hn : micGetAlutRefCount (2 ^ 31) 1 = 1 := (ref_count_eq Nat.one_pos).trans (by decide)
  refine (map_reports_failures _ _ _ Nat.one_pos).1
    ⟨by decide,by rw [hn]; decide,.inl ⟨1,?_,.inl one_ne_zero⟩⟩
  rw [hn]
  refine ⟨Int.one_pos,by decide,.inl ⟨⟨by decide,by decide⟩,?_⟩⟩
  intro j hj
  obtain rfl : j = 0 := Nat.lt_one_iff.mp hj
  decide

/-- Eleven entries are asked for where nine are free: `mic_map` returns the offset. -/
theorem failure_not_reported :
    micMapReturned (Table.init 1 0).alut (2 ^ 39 + 1) (10 * 2 ^ 31) = 1 ∧
      ¬ Right (Table.init 1 0) (2 ^ 39 + 1) (10 * 2 ^ 31) := by
  have hm : (micMap (Table.init 1 0).alut (2 ^ 39 + 1) (10 * 2 ^ 31)).1 = none := by decide +kernel
  refine ⟨by rw [micMapReturned,hm]; decide,?_⟩
  rw [right_of_none (by decide) (by decide) hm]
  exact fun h => absurd h.1 (by decide)

end Mpss.Proofs.AlutReported
