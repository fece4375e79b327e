import Mpss.Proofs.MiclistSorted

namespace Mpss.Proofs.MiclistComplete
open Mpssconfig.Miclist MiclistSorted List Function
open Option hiding or_assoc

theorem digit_toNat {c : Char} (h : c.isDigit = true) : 48 ≤ c.toNat ∧ c.toNat ≤ 57 := by
  simp only [Char.isDigit,Bool.and_eq_true,decide_eq_true_eq] at h
  exact ⟨UInt32.le_iff_toNat_le.mp h.1,UInt32.le_iff_toNat_le.mp h.2⟩

theorem digit_starts (h : c.isDigit = true) : isSpace c = false ∧ c ≠ '-' ∧ c ≠ '+' := by
  obtain ⟨hlo,hhi⟩ := digit_toNat h
  have hne : ∀ d : Char,d.toNat < 48 → c ≠ d := by
    rintro d hd rfl
    omega
  refine ⟨?_,hne '-' (by decide),hne '+' (by decide)⟩
  simp only [isSpace,Char.isWhitespace,Bool.or_eq_false_iff,decide_eq_false_iff_not]
  exact ⟨⟨⟨⟨⟨hne ' ' (by decide),hne '\t' (by decide)⟩,hne '\r' (by decide)⟩,hne '\n'
    (by decide)⟩,by omega⟩,
    by omega⟩

theorem scan_digits (n : Nat) (hr : rest.takeWhile Char.isDigit = []) :
    scanDigits (Nat.toDigits 10 n ++ rest) = some n := by
  have hdg : ∀ c ∈ Nat.toDigits 10 n,Char.isDigit c = true :=
    fun c hc => Nat.isDigit_of_mem_toDigits (by decide) (by decide) hc
  have ht : (Nat.toDigits 10 n ++ rest).takeWhile Char.isDigit = Nat.toDigits 10 n := by
    rw [takeWhile_append_of_pos hdg,hr,append_nil]
  rw [scanDigits,ht]
  cases hd : Nat.toDigits 10 n with
  | nil => exact absurd hd Nat.toDigits_ne_nil
  | cons c ds =>
    show some (Nat.ofDigitChars 10 (c :: ds) 0) = some n
    rw [← hd,Nat.ofDigitChars_ten_toDigits]

theorem scan_decimal {id : Int} (hr : rest.takeWhile Char.isDigit = []) :
    scanLong (decimal id ++ rest) = some id := by
  cases id with
  | ofNat n =>
    have hsc := scan_digits n hr
    show scanLong (Nat.toDigits 10 n ++ rest) = some (Int.ofNat n)
    cases hd : Nat.toDigits 10 n with
    | nil => exact absurd hd Nat.toDigits_ne_nil
    | cons c ds =>
      have hc : c ∈ Nat.toDigits 10 n := by
        rw [hd]
        exact mem_cons_self
      obtain ⟨hs,hm,hp⟩ := digit_starts (Nat.isDigit_of_mem_toDigits (by decide) (by decide) hc)
      rw [hd] at hsc
      rw [cons_append] at hsc ⊢
      rw [scanLong,dropWhile_cons_of_neg (by simp [hs])]
      simp only [if_neg hm,if_neg hp,hsc]
      rfl
  | negSucc n =>
    show scanLong ('-' :: (Nat.toDigits 10 (n + 1) ++ rest)) = some (Int.negSucc n)
    rw [scanLong,dropWhile_cons_of_neg (by decide)]
    simp only [scan_digits (n + 1) hr]
    rfl

theorem decimal_injective : Injective decimal := by
  intro a b hab
  have hs : scanLong (decimal a ++ []) = scanLong (decimal b ++ []) := by rw [hab]
  rw [scan_decimal rfl,scan_decimal rfl] at hs
  exact some.inj hs

theorem micName_inj : micName a = micName b ↔ a = b :=
  ⟨fun h => decimal_injective (append_cancel_left h),congrArg micName⟩

theorem confName_inj : confName a = confName b ↔ a = b :=
  ⟨fun h => micName_inj.mp (append_cancel_right h),congrArg confName⟩

variable {ns base : List (Nat × MicInfo)} {id : Int}

/-- The values of an `int`. -/
def IsInt (n : Int) : Prop := -2 ^ 31 ≤ n ∧ n < 2 ^ 31

theorem toInt_isInt (n : Int) : IsInt (toInt n) := ⟨Int.le_bmod (by decide),Int.bmod_lt (by decide)⟩

theorem toInt_eq (h : IsInt n) : toInt n = n := by
  obtain ⟨hlo,hhi⟩ := h
  have hm : max (-2 ^ 63) (min n (2 ^ 63 - 1)) = n := by omega
  rw [toInt,hm]
  exact Int.bmod_eq_of_le (by omega) (by omega)

theorem scan_isInt (h : scanMic name = some id) : IsInt id := by
  unfold scanMic at h
  split_ifs at h
  obtain ⟨n,-,rfl⟩ := map_eq_some_iff.mp h
  exact toInt_isInt n

theorem scan_mic_name (id : Int) (hr : rest.takeWhile Char.isDigit = []) :
    scanMic (micName id ++ rest) = some (toInt id) := by
  have ht : (micName id ++ rest).take 3 = mic := rfl
  have hd : (micName id ++ rest).drop 3 = decimal id ++ rest := rfl
  rw [scanMic,if_pos ht,hd,scanInt,scan_decimal hr]
  rfl

theorem scan_conf_name (hi : IsInt id) : scanMic (confName id) = some id := by
  rw [confName,scan_mic_name id (by decide),toInt_eq hi]

theorem sysfs_mic_name (id : Int) : sysfsId (micName id) = some (toInt id) := by
  have ht : (micName id).take 3 = mic := rfl
  have hs := scan_mic_name id (show ([] : Name).takeWhile Char.isDigit = [] from rfl)
  rw [append_nil] at hs
  rw [sysfsId,if_neg (not_not.mpr ht),hs]

theorem sysfs_isInt (h : sysfsId name = some id) : IsInt id := by
  unfold sysfsId at h
  split_ifs at h
  exact scan_isInt h

def Has (ns : List (Nat × MicInfo)) (id : Int) : Prop := ∃ n ∈ ns,n.2.id = id

theorem has_place (ha : a.2.id = id) (i : Int) : Has (place id a ns) i ↔ Has ns i ∨ i = id := by
  refine ⟨?_,?_⟩
  · rintro ⟨n,hn,rfl⟩
    rcases mem_place.mp hn with rfl | hn
    · exact .inr ha
    · exact .inl ⟨n,hn,rfl⟩
  · rintro (⟨n,hn,rfl⟩ | rfl)
    · exact ⟨n,mem_place.mpr (.inr hn),rfl⟩
    · exact ⟨a,mem_place.mpr (.inl rfl),ha⟩

/-- `_get_miclist_present`, whose local variable is at `d`, after the ids `done`: a sorted list of
them behind it, and a pointer to the last one added. -/
structure Found (h₀ : Heap) (d : Nat) (done : List Int) (ns : List (Nat × MicInfo)) (s : Present) :
    Prop where
  first : s.firstmic = d
  listed : Listed s.heap d ns
  above : ∀ n ∈ (d,zero) :: ns,d ≤ n.1
  ids : ∀ i,Has ns i ↔ i ∈ done
  flags : ∀ n ∈ ns,n.2.present = true
  length : ns.length = done.length
  count : s.cnt = done.length
  last : ∀ i,done.getLast? = some i → ∃ m,(s.mic,m) ∈ ns ∧ m.id = i
  none : done = [] → s.mic = d
  left : s.heap.left + done.length = h₀.left

theorem Found.start (hb : 0 < h.brk) : Found h h.brk [] [] ⟨h.enter,h.brk,h.brk,0⟩ where
  first := rfl
  listed := by
    have hc : h.enter.cell h.brk = some ⟨zero,0⟩ := update_self _ _ _
    have hl : link h.enter h.brk = 0 := by rw [link,hc]
    refine ⟨⟨.cons _ _ (ne_of_gt hb) ?_,?_⟩,?_,Nat.succ_pos _,.nil⟩
    · rw [hl]
      exact .nil
    · intro n hn
      rw [mem_singleton.mp hn]
      rw [hl,hc]
    · intro n hn
      rw [mem_singleton.mp hn]
      exact Nat.lt_succ_self _
  above := by
    intro n hn
    rw [mem_singleton.mp hn]
  ids := by simp [Has]
  flags := by simp
  length := rfl
  count := rfl
  last := by simp
  none := fun _ => rfl
  left := rfl

theorem take_below_zero (h0 : ∀ n ∈ ns,0 ≤ n.2.id) (hid : id ≤ 0) : ns.takeWhile (below id) = [] := by
  cases ns with
  | nil => rfl
  | cons a ns =>
    refine takeWhile_cons_of_neg ?_
    have := h0 a mem_cons_self
    simp only [below,decide_eq_true_eq]
    omega

theorem Found.add (hf : Found h₀ d done ns s) (hnm : sysfsId name = some id) (hid : id ∉ done)
    (hp : ∀ i ∈ done,0 ≤ i) (hi : 0 ≤ id) (hlf : done.length < h₀.left) :
    ∃ s' ns',addPresent s name = some s' ∧ Found h₀ d (done ++ [id]) ns' s' := by
  have ha : ∀ n ∈ ns,n.2.id ≠ id := fun n hn he => hid ((hf.ids id).mp ⟨n,hn,he⟩)
  have hs : seekPresent s.heap id s.heap.brk d = some (lastAddr d (ns.takeWhile (below id))) := by
    refine seek_present hf.listed.lists ?_ hf.listed.fits
    by_cases hz : 0 < id
    · exact .inl hz
    · exact .inr (take_below_zero (fun n hn => hp _ ((hf.ids _).mp ⟨n,hn,rfl⟩)) (not_lt.mp hz))
  generalize hq : lastAddr d (ns.takeWhile (below id)) = q at hs
  obtain ⟨m,hmm,hm,hls⟩ := hf.listed.insert (show (⟨id,name,true⟩ : MicInfo).id = id from rfl) ha hq
  have hc : s.heap.cell q = some ⟨m,link s.heap q⟩ := hf.listed.lists.cells (q,m) hmm
  have hle : ¬ m.id > id := by
    rcases hm with rfl | hm
    · exact not_lt.mpr hi
    · omega
  have hml := malloc_some (h := s.heap) (by have := hf.left; omega)
  refine ⟨⟨insertAfter s.heap q m ⟨id,name,true⟩,d,s.heap.brk,s.cnt + 1⟩,place id
    (s.heap.brk,⟨id,name,true⟩) ns,?_,?_⟩
  · unfold addPresent
    simp only [hnm,hs,hc,hml,if_neg hle,hf.first,bind_eq_bind,bind_some]
    rfl
  have hd : d < s.heap.brk := hf.listed.old (d,zero) mem_cons_self
  refine ⟨rfl,hls,?_,?_,?_,?_,?_,?_,?_,?_⟩
  · intro n hn
    rcases mem_cons.mp hn with rfl | hn
    · exact le_rfl
    · rcases mem_place.mp hn with rfl | hn
      · exact hd.le
      · exact hf.above n (.tail _ hn)
  · intro i
    refine (has_place (a := (s.heap.brk,⟨id,name,true⟩)) rfl i).trans ?_
    rw [hf.ids,mem_append,mem_singleton]
  · intro n hn
    rcases mem_place.mp hn with rfl | hn
    · rfl
    · exact hf.flags n hn
  · rw [length_place,hf.length,length_append]
    rfl
  · rw [hf.count,length_append]
    rfl
  · intro i he
    rw [getLast?_append,getLast?_singleton] at he
    cases he
    exact ⟨⟨id,name,true⟩,mem_place.mpr (.inl rfl),rfl⟩
  · intro he
    simp at he
  · have hl := hf.left
    show s.heap.left - 1 + (done ++ [id]).length = h₀.left
    rw [length_append,length_singleton]
    omega

theorem Found.run (names : List Name) (hf : Found h₀ d done ns s)
    (hn : (done ++ names.filterMap sysfsId).Nodup)
    (hp : ∀ i ∈ done ++ names.filterMap sysfsId,0 ≤ i)
    (hl : (done ++ names.filterMap sysfsId).length ≤ h₀.left) :
    ∃ s' ns',names.foldlM addPresent s = some s' ∧
    Found h₀ d (done ++ names.filterMap sysfsId) ns' s' := by
  induction names generalizing done ns s with
  | nil =>
    refine ⟨s,ns,rfl,?_⟩
    simpa using hf
  | cons name names ih =>
    cases hnm : sysfsId name with
    | none =>
      rw [filterMap_cons_none hnm] at *
      obtain ⟨s',ns',hr,hf'⟩ := ih hf hn hp hl
      refine ⟨s',ns',?_,hf'⟩
      have hs : addPresent s name = some s := by
        unfold addPresent
        rw [hnm]
      rw [foldlM_cons,hs]
      exact hr
    | some id =>
      rw [filterMap_cons_some hnm,append_cons] at *
      have hid : id ∉ done := by
        intro hm
        have ho := List.Nodup.of_append_left hn
        exact (nodup_append.mp ho).2.2 id hm id mem_cons_self rfl
      obtain ⟨s1,ns1,hs,hf1⟩ := hf.add hnm hid
        (fun i hi => hp i (mem_append_left _ (mem_append_left _ hi)))
        (hp id (mem_append_left _ (mem_append_right _ mem_cons_self)))
        (by
          rw [length_append,length_append,length_singleton] at hl
          omega)
      obtain ⟨s',ns',hr,hf'⟩ := ih hf1 hn hp hl
      refine ⟨s',ns',?_,hf'⟩
      rw [foldlM_cons,hs]
      exact hr

/-- What `_get_miclist_present` hands to `mpss_get_miclist`, whose local variable is at `e`. -/
structure Handed (h : Heap) (e first : Nat) (base : List (Nat × MicInfo)) : Prop where
  lists : Lists h first base
  old : ∀ n ∈ base,n.1 < h.brk ∧ n.1 ≠ e
  here : 0 < e ∧ e < h.brk
  fits : base.length < h.brk
  sorted : Sorted base
  flags : ∀ n ∈ base,n.2.present = true

theorem Handed.listed (hh : Handed h e first base) : Listed (h.store e ⟨zero,first⟩) e base := by
  have hc : (h.store e ⟨zero,first⟩).cell e = some ⟨zero,first⟩ := update_self _ _ _
  have hl : link (h.store e ⟨zero,first⟩) e = first := by rw [link,hc]
  have hr : Lists (h.store e ⟨zero,first⟩) first base :=
    hh.lists.congr (fun n hn => update_of_ne (hh.old n hn).2 _ _)
  refine ⟨⟨.cons _ _ (ne_of_gt hh.here.1) ?_,?_⟩,?_,hh.fits,hh.sorted⟩
  · rw [hl]
    exact hr.path
  · intro n hn
    rcases mem_cons.mp hn with rfl | hn
    · rw [hl,hc]
    · exact hr.cells n hn
  · intro n hn
    rcases mem_cons.mp hn with rfl | hn
    · exact hh.here.2
    · exact (hh.old n hn).1

theorem Found.handed (hf : Found h₀ d done ns s) (hl : done.getLast? = some id) (he : 0 < e ∧ e < d) :
    ∃ base,Handed (s.heap.leave d) e s.mic base ∧ (∀ i,Has base i ↔ i ∈ done ∧ id ≤ i) ∧
      ((∀ i ∈ done,id ≤ i) → base.length = done.length) := by
  obtain ⟨m,hm,hid⟩ := hf.last id hl
  obtain ⟨pre,post,hns⟩ := append_of_mem hm
  have hc : Lists s.heap d (((d,zero) :: pre) ++ (s.mic,m) :: post) := by
    have := hf.listed.lists
    rwa [hns] at this
  have hds : ∀ n ∈ ns,n.1 ≠ d := by
    have hal : Lists s.heap d ([] ++ (d,zero) :: ns) := hf.listed.lists
    exact hal.distinct
  have hmm : ∀ n ∈ (s.mic,m) :: post,n ∈ ns := by
    intro n hn
    rw [hns]
    exact mem_append_right pre hn
  have hs := hf.listed.sorted
  rw [hns] at hs
  obtain ⟨_,hr,hcr⟩ := pairwise_append.mp hs
  have hge : ∀ n ∈ (s.mic,m) :: post,id ≤ n.2.id := by
    intro n hn
    rcases mem_cons.mp hn with rfl | hn
    · exact le_of_eq hid.symm
    · have := (pairwise_cons.mp hr).1 n hn
      rw [← hid]
      exact this.le
  have hlt : ∀ n ∈ pre,n.2.id < id := by
    intro n hn
    rw [← hid]
    exact hcr n hn (s.mic,m) mem_cons_self
  refine ⟨(s.mic,m) :: post,⟨?_,?_,?_,?_,hr,fun n hn => hf.flags n (hmm n hn)⟩,?_,?_⟩
  · exact hc.suffix.leave (fun n hn => hds n (hmm n hn))
  · intro n hn
    have hab := hf.above n (.tail _ (hmm n hn))
    exact ⟨hf.listed.old n (.tail _ (hmm n hn)),by omega⟩
  · have hd : d < s.heap.brk := hf.listed.old (d,zero) mem_cons_self
    exact ⟨he.1,he.2.trans hd⟩
  · have hft := hf.listed.fits
    rw [hns,length_append] at hft
    exact (Nat.le_add_left _ _).trans_lt hft
  · intro i
    rw [← hf.ids]
    refine ⟨?_,?_⟩
    · rintro ⟨n,hn,rfl⟩
      exact ⟨⟨n,hmm n hn,rfl⟩,hge n hn⟩
    rintro ⟨⟨n,hn,rfl⟩,hle⟩
    rw [hns,mem_append] at hn
    rcases hn with hn | hn
    · have := hlt n hn
      omega
    · exact ⟨n,hn,rfl⟩
  · intro hmn
    have hp : pre = [] := by
      cases pre with
      | nil => rfl
      | cons a pre =>
        have ha := hlt a mem_cons_self
        have := hmn a.2.id ((hf.ids _).mp ⟨a,by rw [hns]; exact mem_cons_self,rfl⟩)
        omega
    rw [← hf.length,hns,hp,nil_append]

/-- The state of `_add_miclist_not_present` after the files with the ids `done`. -/
structure Added (e : Nat) (base : List (Nat × MicInfo)) (c0 l0 : Nat) (done : List Int)
    (ns : List (Nat × MicInfo)) (s : Heap × Nat) : Prop where
  listed : Listed s.1 e ns
  ids : ∀ i,Has ns i ↔ Has base i ∨ i ∈ done
  flags : ∀ n ∈ ns,n.2.present = true ↔ Has base n.2.id
  count : s.2 + base.length = c0 + ns.length
  left : l0 ≤ s.1.left + done.length

theorem Handed.start (hh : Handed h e first base) (c0 : Nat) :
    Added e base c0 h.left [] base (h.store e ⟨zero,first⟩,c0) where
  listed := hh.listed
  ids := by simp
  flags := fun n hn => ⟨fun _ => ⟨n,hn,rfl⟩,fun _ => hh.flags n hn⟩
  count := rfl
  left := le_rfl

theorem Added.add (ha : Added e base c0 l0 done ns s)
    (hnm : scanMic name = some id) (hlf : done.length < l0) :
    ∃ s' ns',addNotPresent e s name = some s' ∧ Added e base c0 l0 (done ++ [id]) ns' s' := by
  have hsk : seekNotPresent s.1 id s.1.brk e = some (lastAddr e (ns.takeWhile (below id)),
    missing id ns) :=
    seek_not_present ha.listed.lists ha.listed.fits
  generalize hq : lastAddr e (ns.takeWhile (below id)) = q at hsk
  have hs := ha.left
  cases hms : missing id ns with
  | true =>
    rw [hms] at hsk
    have hab : ∀ n ∈ ns,n.2.id ≠ id := ha.listed.sorted.missing.mp hms
    obtain ⟨m,hmm,-,hl⟩ := ha.listed.insert (show (⟨id,micName id,false⟩ : MicInfo).id =
      id from rfl) hab hq
    have hcl : s.1.cell q = some ⟨m,link s.1 q⟩ := ha.listed.lists.cells (q,m) hmm
    have hm := malloc_some (h := s.1) (by omega)
    refine ⟨(insertAfter s.1 q m ⟨id,micName id,false⟩,s.2 + 1),place id
      (s.1.brk,⟨id,micName id,false⟩) ns,
      ?_,hl,?_,?_,?_,?_⟩
    · unfold addNotPresent
      simp only [hnm,hsk,hcl,hm,bind_eq_bind,bind_some,if_true]
      rfl
    · intro i
      refine (has_place (a := (s.1.brk,⟨id,micName id,false⟩)) rfl i).trans ?_
      rw [ha.ids,mem_append,mem_singleton,or_assoc]
    · intro n hn
      rcases mem_place.mp hn with rfl | hn
      · refine ⟨fun he => absurd he Bool.false_ne_true,fun hb => ?_⟩
        obtain ⟨n,hn,he⟩ := (ha.ids id).mpr (.inl hb)
        exact absurd he (hab n hn)
      · exact ha.flags n hn
    · have hc := ha.count
      rw [length_place]
      omega
    · show l0 ≤ s.1.left - 1 + (done ++ [id]).length
      rw [length_append,length_singleton]
      omega
  | false =>
    rw [hms] at hsk
    have hh : Has ns id := by
      by_contra hab
      refine Bool.false_ne_true (hms.symm.trans (ha.listed.sorted.missing.mpr ?_))
      exact fun n hn he => hab ⟨n,hn,he⟩
    refine ⟨s,ns,?_,ha.listed,?_,ha.flags,ha.count,?_⟩
    · unfold addNotPresent
      simp only [hnm,hsk,bind_eq_bind,bind_some]
      rfl
    · intro i
      rw [mem_append,mem_singleton,← or_assoc,← ha.ids]
      refine ⟨.inl,?_⟩
      rintro (hi | rfl)
      · exact hi
      · exact hh
    · rw [length_append]
      exact Nat.le_trans hs (Nat.add_le_add_left (Nat.le_add_right _ _) _)

theorem Added.run (names : List Name) (ha : Added e base c0 l0 done ns s)
    (hl : (done ++ names.filterMap scanMic).length ≤ l0) :
    ∃ s' ns',names.foldlM (addNotPresent e) s = some s' ∧
      Added e base c0 l0 (done ++ names.filterMap scanMic) ns' s' := by
  induction names generalizing done ns s with
  | nil =>
    refine ⟨s,ns,rfl,?_⟩
    simpa using ha
  | cons name names ih =>
    cases hn : scanMic name with
    | none =>
      rw [filterMap_cons_none hn] at *
      obtain ⟨s',ns',hr,ha'⟩ := ih ha hl
      refine ⟨s',ns',?_,ha'⟩
      have hs : addNotPresent e s name = some s := by
        unfold addNotPresent
        rw [hn]
      rw [foldlM_cons,hs]
      exact hr
    | some id =>
      rw [filterMap_cons_some hn,append_cons] at *
      obtain ⟨s1,ns1,hs,ha1⟩ := ha.add hn (by
        rw [length_append,length_append,length_singleton] at hl
        omega)
      obtain ⟨s',ns',hr,ha'⟩ := ih ha1 hl
      refine ⟨s',ns',?_,ha'⟩
      rw [foldlM_cons,hs]
      exact hr

/-- The list that `mpss_get_miclist` returns from `base`, of which `c0` had been counted, and files
with the ids `files`. -/
structure Returned (base : List (Nat × MicInfo)) (c0 : Nat) (files : List Int) (l : List MicInfo)
    (cnt : Nat) : Prop where
  sorted : l.Pairwise (fun a b => a.id < b.id)
  ids : ∀ i,(∃ m ∈ l,m.id = i) ↔ Has base i ∨ i ∈ files
  flags : ∀ m ∈ l,m.present = true ↔ Has base m.id
  count : cnt + base.length = c0 + l.length

theorem Added.returned (ha : Added e base c0 l0 done ns s) :
    Returned base c0 done (ns.map Prod.snd) s.2 where
  sorted := pairwise_map.mpr ha.listed.sorted
  ids := by
    intro i
    rw [← ha.ids]
    refine ⟨?_,?_⟩
    · rintro ⟨m,hm,rfl⟩
      obtain ⟨n,hn,rfl⟩ := mem_map.mp hm
      exact ⟨n,hn,rfl⟩
    · rintro ⟨n,hn,rfl⟩
      exact ⟨n.2,mem_map_of_mem hn,rfl⟩
  flags := by
    intro m hm
    obtain ⟨n,hn,rfl⟩ := mem_map.mp hm
    exact ha.flags n hn
  count := by
    rw [length_map]
    exact ha.count

theorem Handed.returns (hh : Handed h e first base)
    (hl : ((conf.getD []).filterMap scanMic).length ≤ h.left) (c0 : Nat) :
    ∃ h' p cnt ns,addMiclistNotPresent conf e (h.store e ⟨zero,first⟩) c0 = some (h',p,cnt) ∧
      Lists (h'.leave e) p ns ∧ Returned base c0 ((conf.getD []).filterMap scanMic)
      (ns.map Prod.snd) cnt := by
  obtain ⟨s,ns,hr,ha⟩ := (hh.start c0).run (conf.getD []) (by simpa using hl)
  have hal : Lists s.1 e ([] ++ (e,zero) :: ns) := ha.listed.lists
  refine ⟨s.1,link s.1 e,s.2,ns,?_,?_,ha.returned⟩
  · unfold addMiclistNotPresent
    simp only [hr,ha.listed.lists.head,bind_eq_bind,bind_some]
    rfl
  · exact ha.listed.lists.tail.leave hal.distinct

/-- What `mpss_get_miclist` is for: the cards of the system and those with a configuration file. -/
structure Complete (sysfs conf : List Name) (l : List MicInfo) (cnt : Nat) : Prop where
  sorted : l.Pairwise (fun a b => a.id < b.id)
  ids : ∀ id,(∃ m ∈ l,m.id = id) ↔ micName id ∈ sysfs ∨ confName id ∈ conf
  flags : ∀ m ∈ l,m.present = true ↔ micName m.id ∈ sysfs
  count : cnt = l.length

/-- A directory with one entry for each card, among others. -/
structure Cards (names : List Name) : Prop where
  distinct : names.Nodup
  named : ∀ name ∈ names,∀ id,sysfsId name = some id → name = micName id ∧ 0 ≤ id

theorem Cards.mem_ids (hc : Cards names) : id ∈ names.filterMap sysfsId ↔ micName id ∈ names := by
  rw [mem_filterMap]
  refine ⟨?_,fun hm => ⟨micName id,hm,?_⟩⟩
  · rintro ⟨name,hm,hn⟩
    rw [← (hc.named name hm id hn).1]
    exact hm
  · have hs := sysfs_mic_name id
    rwa [← micName_inj.mp (hc.named _ hm _ hs).1] at hs

theorem Cards.nodup_ids (hc : Cards names) : (names.filterMap sysfsId).Nodup := by
  refine pairwise_filterMap.mpr (hc.distinct.imp_of_mem ?_)
  rintro a b ha hb hne i hi j hj rfl
  exact hne ((hc.named a ha i hi).1.trans (hc.named b hb i hj).1.symm)

theorem Cards.nonneg (hc : Cards names) : ∀ id ∈ names.filterMap sysfsId,0 ≤ id := by
  intro id hid
  obtain ⟨name,hm,hn⟩ := mem_filterMap.mp hid
  exact (hc.named name hm id hn).2

theorem cards_of_ids {ids : List Int} (hn : ids.Nodup) (hp : ∀ i ∈ ids,0 ≤ i ∧ i < 2 ^ 31) :
    Cards (ids.map micName) where
  distinct := hn.map fun _ _ => micName_inj.mp
  named := by
    intro name hm id hnm
    obtain ⟨i,hi,rfl⟩ := mem_map.mp hm
    obtain ⟨hlo,hhi⟩ := hp i hi
    rw [sysfs_mic_name,toInt_eq ⟨by omega,hhi⟩] at hnm
    rw [← Option.some.inj hnm]
    exact ⟨rfl,hlo⟩

/-- Every file taken for the configuration of a card is one, or that of a card in the system, and no
configuration file is taken for that of another card. -/
structure Configs (sysfs conf : List Name) : Prop where
  files : ∀ id ∈ conf.filterMap scanMic,micName id ∈ sysfs ∨ confName id ∈ conf
  ints : ∀ id,confName id ∈ conf → IsInt id

/-- The list is complete when all cards were handed over and every file taken for a configuration is
one. -/
theorem Returned.complete_iff (hc : Cards names) (hr : Returned base c0 (conf.filterMap scanMic) l cnt)
    (hbs : ∀ i,Has base i → i ∈ names.filterMap sysfsId)
    (hl : (∀ i ∈ names.filterMap sysfsId,Has base i) → base.length = c0) :
    Complete names conf l cnt ↔ (∀ i ∈ names.filterMap sysfsId,Has base i) ∧ Configs names conf := by
  refine ⟨fun h => ⟨?_,?_,?_⟩,?_⟩
  · intro i hi
    have hn := hc.mem_ids.mp hi
    obtain ⟨m,hm,rfl⟩ := (h.ids i).mpr (.inl hn)
    exact (hr.flags m hm).mp ((h.flags m hm).mpr hn)
  · intro i hi
    exact (h.ids i).mp ((hr.ids i).mpr (.inr hi))
  · intro i hi
    rcases (hr.ids i).mp ((h.ids i).mpr (.inr hi)) with hb | hf
    · obtain ⟨_,-,hn⟩ := mem_filterMap.mp (hbs i hb)
      exact sysfs_isInt hn
    · obtain ⟨_,-,hn⟩ := mem_filterMap.mp hf
      exact scan_isInt hn
  · rintro ⟨ha,hf⟩
    have hh : ∀ i,Has base i ↔ micName i ∈ names :=
      fun i => ⟨fun hb => hc.mem_ids.mp (hbs i hb),fun hm => ha i (hc.mem_ids.mpr hm)⟩
    refine ⟨hr.sorted,fun i => ?_,fun m hm => (hr.flags m hm).trans (hh m.id),?_⟩
    · rw [hr.ids,hh]
      refine ⟨?_,Or.imp_right fun hm => mem_filterMap.mpr ⟨_,hm,scan_conf_name (hf.ints i hm)⟩⟩
      rintro (hm | hm)
      · exact .inl hm
      · exact hf.files i hm
    · have hcn := hr.count
      have hbl := hl ha
      omega

/-- Whether the directory of the cards lists the one with the smallest id last, if it can be
read. -/
def SmallestLast (sysfs : Option (List Name)) : Prop :=
  ∀ names,sysfs = some names → ∃ id,(names.filterMap sysfsId).getLast? = some id ∧
    ∀ i ∈ names.filterMap sysfsId,id ≤ i

/-- A caller gets the list that it should get. -/
def Delivers (sysfs conf : Option (List Name)) (h : Heap) : Prop :=
  ∃ h' p cnt n l,mpssGetMiclist sysfs conf h = some (h',p,cnt) ∧ readList h' n p = some l ∧
    Complete (sysfs.getD []) (conf.getD []) l cnt

theorem delivers_iff (hp : getMiclistPresent sysfs h.enter = some r)
    (hc : Cards (sysfs.getD [])) (hh : Handed r.1 h.brk r.2.1 base)
    (hlf : ((conf.getD []).filterMap scanMic).length ≤ r.1.left)
    (hb : ∀ i,Has base i → i ∈ (sysfs.getD []).filterMap sysfsId)
    (hln : (∀ i ∈ (sysfs.getD []).filterMap sysfsId,Has base i) → base.length = r.2.2) :
    Delivers sysfs conf h ↔
      (∀ i ∈ (sysfs.getD []).filterMap sysfsId,Has base i) ∧ Configs (sysfs.getD [])
      (conf.getD []) := by
  obtain ⟨h',p,cnt,ns,hrn,hl,hrt⟩ := hh.returns hlf r.2.2
  have hg : mpssGetMiclist sysfs conf h = some (h'.leave h.brk,p,cnt) := by
    unfold mpssGetMiclist
    simp only [hp,hrn,bind_eq_bind,bind_some]
    rfl
  rw [← hrt.complete_iff hc hb hln]
  refine ⟨?_,fun hd => ⟨_,p,cnt,ns.length,_,hg,hl.read le_rfl,hd⟩⟩
  rintro ⟨h1,p1,c1,n,l,hg1,hr,hd⟩
  rw [hg] at hg1
  cases hg1
  rw [hl.read_eq hr] at hd
  exact hd

theorem dead_run (names : List Name) (he : s.1.cell e = some ⟨zero,d⟩) (hd : d ≠ 0)
    (hdd : s.1.cell d = none) :
    names.foldlM (addNotPresent e) s = none ∨ names.foldlM (addNotPresent e) s = some s := by
  induction names with
  | nil => exact .inr rfl
  | cons name names ih =>
    rw [foldlM_cons]
    cases hn : scanMic name with
    | none =>
      have hs : addNotPresent e s name = some s := by
        unfold addNotPresent
        rw [hn]
      rw [hs]
      exact ih
    | some id =>
      have hsk : seekNotPresent s.1 id s.1.brk e = none := by
        cases s.1.brk with
        | zero => rfl
        | succ n =>
          rw [seekNotPresent,he]
          simp [if_neg hd,hdd]
      have hs : addNotPresent e s name = none := by
        unfold addNotPresent
        simp [hn,hsk]
      rw [hs]
      exact .inl rfl

theorem dead_not_delivers (hp : getMiclistPresent sysfs h.enter = some r)
    (hd : r.2.1 ≠ 0) (hne : r.2.1 ≠ h.brk) (hdd : r.1.cell r.2.1 = none) :
    ¬ Delivers sysfs conf h := by
  rintro ⟨h',p,cnt,n,l,hgt,hr,-⟩
  generalize hs : r.1.store h.brk ⟨zero,r.2.1⟩ = h1 at *
  have hc : h1.cell h.brk = some ⟨zero,r.2.1⟩ := by
    rw [← hs]
    exact update_self _ _ _
  have hg : h1.cell r.2.1 = none := by
    rw [← hs]
    exact (update_of_ne hne _ _).trans hdd
  unfold mpssGetMiclist addMiclistNotPresent at hgt
  simp only [hp,hs,bind_eq_bind,bind_some] at hgt
  rcases dead_run (s := (h1,r.2.2)) (conf.getD []) hc hd hg with hrn | hrn
  · rw [hrn] at hgt
    cases hgt
  rw [hrn] at hgt
  simp only [bind_some,hc] at hgt
  cases hgt
  obtain ⟨k,hk⟩ := Nat.exists_eq_succ_of_ne_zero hd
  have hl : (h1.leave h.brk).cell r.2.1 = none := (update_of_ne hne _ _).trans hg
  rw [hk] at hr hl
  cases n with
  | zero => cases hr
  | succ n =>
    rw [readList,hl] at hr
    cases hr

/-- The list is complete exactly when the directory lists the smallest id last and only
configuration files look like one, each for its own card. -/
theorem miclist_complete_iff (h : Heap) (sysfs conf : Option (List Name)) (hb : 0 < h.brk)
    (hc : Cards (sysfs.getD []))
    (hleft : ((sysfs.getD []).filterMap sysfsId).length +
      ((conf.getD []).filterMap scanMic).length ≤ h.left) :
    Delivers sysfs conf h ↔ SmallestLast sysfs ∧ Configs (sysfs.getD []) (conf.getD []) := by
  cases sysfs with
  | none =>
    have hh : Handed h.enter h.brk 0 [] :=
      ⟨⟨.nil,fun n hn => absurd hn not_mem_nil⟩,fun n hn => absurd hn not_mem_nil,
        ⟨hb,Nat.lt_succ_self _⟩,Nat.succ_pos _,.nil,fun n hn => absurd hn not_mem_nil⟩
    have hp : getMiclistPresent none h.enter = some (h.enter,0,0) := rfl
    rw [delivers_iff hp hc hh ((Nat.le_add_left _ _).trans hleft) (by simp [Has]) (fun _ => rfl)]
    refine and_congr_left fun _ => ⟨fun _ names he => absurd he (by simp),fun _ i hi =>
      absurd hi not_mem_nil⟩
  | some names =>
    have hl' : (names.filterMap sysfsId).length + ((conf.getD []).filterMap scanMic).length ≤
      h.left := hleft
    obtain ⟨s,ns,hr,hf⟩ := (Found.start (h := h.enter) (Nat.succ_pos _)).run names
      (by simpa using hc.nodup_ids) (by simpa using hc.nonneg) (by
        exact (Nat.le_add_right _ _).trans hl')
    have hp : getMiclistPresent (some names) h.enter = some (s.heap.leave h.enter.brk,
      s.mic,s.cnt) := by
      unfold getMiclistPresent
      simp only [hr,bind_eq_bind,bind_some]
      rfl
    cases hl : (names.filterMap sysfsId).getLast? with
    | none =>
      have hm : s.mic = h.brk + 1 := hf.none (getLast?_eq_none_iff.mp hl)
      refine iff_of_false (dead_not_delivers hp ?_ ?_ ?_) ?_
      · rw [hm]
        exact Nat.succ_ne_zero _
      · rw [hm]
        exact Nat.succ_ne_self _
      · rw [hm]
        exact update_self _ _ _
      · rintro ⟨hsm,-⟩
        obtain ⟨id,hid,-⟩ := hsm names rfl
        rw [hl] at hid
        cases hid
    | some id =>
      obtain ⟨base,hh,hbs,hln⟩ := hf.handed hl ⟨hb,Nat.lt_succ_self h.brk⟩
      have hs : ((conf.getD []).filterMap scanMic).length ≤ (s.heap.leave h.enter.brk).left := by
        have hu : s.heap.left + (names.filterMap sysfsId).length = h.left := hf.left
        show _ ≤ s.heap.left
        omega
      rw [delivers_iff hp hc hh hs (fun i hi => ((hbs i).mp hi).1) (fun ha => ?_)]
      · refine and_congr_left fun _ => ⟨?_,?_⟩
        · intro ha names' he
          cases he
          exact ⟨id,hl,fun i hi => ((hbs i).mp (ha i hi)).2⟩
        · intro hsm i hi
          obtain ⟨id',hi',hmn⟩ := hsm names rfl
          rw [hl] at hi'
          cases hi'
          exact (hbs i).mpr ⟨hi,hmn i hi⟩
      · rw [hln fun i hi => ((hbs i).mp (ha i hi)).2]
        exact hf.count.symm

theorem miclist_complete_descending :
    Delivers (some ([2,1,0].map micName)) (some [confName 5,confName 1]) ⟨fun _ => none,1,9⟩ := by
  have hc : Cards ([2,1,0].map micName) := cards_of_ids (by decide) (by decide)
  refine (miclist_complete_iff ⟨fun _ => none,1,9⟩ (some ([2,1,0].map micName)) _ (by decide) hc
    (by decide)).mpr ⟨?_,?_⟩
  · intro names he
    cases he
    exact ⟨0,by decide,by decide⟩
  · refine ⟨by decide,fun id hid => ?_⟩
    rcases mem_pair.mp hid with h | h
    all_goals
      rw [confName_inj.mp h]
      exact ⟨by decide,by decide⟩

/-- Listed in the order of their ids, all cards but the last one are lost, and counted. -/
theorem miclist_loses_cards :
    ∃ h' p cnt l,mpssGetMiclist (some ([0,1].map micName)) (some []) ⟨fun _ => none,1,9⟩ =
      some (h',p,cnt) ∧ readList h' 9 p = some l ∧ l = [⟨1,micName 1,true⟩] ∧ cnt = 2 ∧
      ¬ Complete ([0,1].map micName) [] l cnt := by
  refine ⟨_,_,_,_,rfl,rfl,rfl,rfl,fun hd => ?_⟩
  exact absurd hd.count (by decide)

end Mpss.Proofs.MiclistComplete
