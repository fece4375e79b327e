import Mpss.Proofs.WindowRun

namespace Mpss.Proofs.Translation
open List hiding iter getD
open Scif.Copy WindowRun Option

variable {w : Window} {bus : List Nat} {prev next : Nat}

/-- The bus address of a byte of the window, page by page. -/
def busByte (w : Window) (bus : List Nat) (off : Nat) : Nat :=
  bus.getD ((off - w.offset) / pageSize) 0 + off % pageSize

/-- What is found is the bus address of the byte, and the bytes found from there on are contiguous
on the bus as in the pages. -/
structure Translated (w : Window) (bus : List Nat) (off addr nrBytes : Nat) : Prop where
  first : addr = busByte w bus off
  pos : 0 < nrBytes
  inside : off + nrBytes ≤ w.endOffset
  contiguous : ∀ k < nrBytes,addr + k = busByte w bus (off + k)

/-- Every offset of the window is translated, with and without an iterator. -/
structure Translates (w : Window) (bus : List Nat) : Prop where
  found : ∀ off,w.offset ≤ off → off < w.endOffset →
    ∃ addr nrBytes,offToDma w off = some (addr,nrBytes) ∧ Translated w bus off addr nrBytes
  iterated : ∀ offs : List Nat,offs.Pairwise (· ≤ ·) → (∀ off ∈ offs,w.offset ≤ off) →
    translateAll w (scifInitWindowIter w) offs = offs.map (offToDma w)

theorem findChunk_resume {chunks cs : List Chunk} (hcs : cs = chunks.drop iter.index)
    (hle : iter.offset ≤ off) (hf : findChunk off cs iter = some d) : d.iter.offset ≤ off ∧
      ∀ off',off ≤ off' → findChunk off' cs iter = findChunk off'
      (chunks.drop d.iter.index) d.iter := by
  induction cs generalizing iter with
  | nil => cases hf
  | cons c cs ih =>
    unfold findChunk at hf
    dsimp only at hf
    split_ifs at hf with hot
    · cases hf
      refine ⟨hle,?_⟩
      intro off' _
      rw [hcs]
    have hp : iter.offset + c.numPages * pageSize ≤ off := by
      by_contra hno
      exact hot ⟨hle,not_le.mp hno⟩
    have hr : cs = chunks.drop (iter.index + 1) := by
      rw [← drop_drop,← hcs]
      rfl
    obtain ⟨hi,hs⟩ := @ih ⟨iter.index + 1,iter.offset + c.numPages * pageSize⟩ hr hp hf
    refine ⟨hi,?_⟩
    intro off' ho
    rw [← hs off' ho,findChunk]
    exact if_neg (fun h => absurd h.2 (not_lt.mpr (hp.trans ho)))

theorem translateAll_eq (hle : iter.offset ≤ low)
    (hs : ∀ off,low ≤ off →
      findChunk off w.chunks (scifInitWindowIter w) = findChunk off (w.chunks.drop iter.index) iter)
    (hsr : offs.Pairwise (· ≤ ·)) (hl : ∀ off ∈ offs,low ≤ off) :
      translateAll w iter offs = offs.map (offToDma w) := by
  induction offs generalizing iter low with
  | nil => rfl
  | cons off offs ih =>
    obtain ⟨hfr,hr⟩ := pairwise_cons.mp hsr
    obtain ⟨hof,ho⟩ := forall_mem_cons.mp hl
    rw [translateAll,map_cons,offToDma,scifOffToDmaAddr,scifOffToDmaAddr]
    by_cases hfs : w.nrPages = w.chunks.length
    · rw [if_pos hfs,if_pos hfs]
      cases hc : w.chunks[(off - w.offset) / pageSize]? with
      | none | some c => exact congrArg _ (ih hle hs hr ho)
    have hi : w.chunks.drop (scifInitWindowIter w).index = w.chunks := rfl
    rw [if_neg hfs,if_neg hfs,hi,hs off hof]
    cases hf : findChunk off (w.chunks.drop iter.index) iter with
    | none => exact congrArg _ (ih hle hs hr ho)
    | some d =>
      obtain ⟨hir,hsm⟩ := findChunk_resume rfl (hle.trans hof) hf
      refine congrArg _ (ih hir ?_ hr hfr)
      intro off' ho'
      rw [hs off' (hof.trans ho'),hsm off' ho']

/-- The iterator never changes what is found, whatever the chunks are. -/
theorem iterator_agrees (hs : offs.Pairwise (· ≤ ·)) (hl : ∀ off ∈ offs,w.offset ≤ off) :
    translateAll w (scifInitWindowIter w) offs = offs.map (offToDma w) :=
  translateAll_eq (le_refl w.offset) (fun _ _ => rfl) hs hl

theorem translates_of_backed (ho : w.offset % pageSize = 0) (hln : bus.length = w.nrPages)
    (hb : Backed id w.chunks bus) : Translates w bus := by
  have hs : Sound id { w with pages := bus } := ⟨ho,hln,hb⟩
  refine ⟨?_,fun offs hsr hl => iterator_agrees hsr hl⟩
  intro off hl hh
  obtain ⟨d,hd,hf⟩ := hs.off_to_dma (hs.valid_init hl) hl hh
  refine ⟨d.addr,d.nrBytes,?_,hf.cells 0 hf.pos,hf.pos,hf.inside,hf.cells⟩
  exact congrArg (Option.map _) hd

theorem chunk_bytes {pages : List Nat} (h : ∀ i < n,pages.getD i 0 = addr + i * pageSize) :
    ∀ i < n,∀ b < pageSize,id (addr + i * pageSize + b) = pages.getD i 0 + b := by
  intro i hi b _
  rw [h i hi]
  rfl

/-- What is contiguous in physical memory is mapped contiguously, and pages are mapped to pages. -/
structure Linear (phys bus : List Nat) : Prop where
  length : bus.length = phys.length
  aligned : ∀ addr ∈ bus,addr % pageSize = 0
  goes : ∀ i,i + 1 < phys.length → phys.getD (i + 1) 0 = phys.getD i 0 + pageSize →
    bus.getD (i + 1) 0 = bus.getD i 0 + pageSize

theorem nrContigPages_le (prev : Nat) (rest : List Nat) : nrContigPages prev rest ≤ rest.length := by
  induction rest generalizing prev with
  | nil => exact le_rfl
  | cons curr rest ih =>
    unfold nrContigPages
    split
    · exact Nat.succ_le_succ (ih curr)
    · exact Nat.zero_le _

theorem nrContigPages_goes (hi : i < nrContigPages prev rest) :
    (prev :: rest).getD (i + 1) 0 = (prev :: rest).getD i 0 + pageSize := by
  induction rest generalizing prev i with
  | nil => cases hi
  | cons curr rest ih =>
    unfold nrContigPages at hi
    split_ifs at hi with hg
    · cases i with
      | zero => exact hg
      | succ i => exact ih (Nat.lt_of_succ_lt_succ hi)
    · cases hi

theorem mapChunks_backed (h : Linear phys bus)
    (hmp : ∀ i addr,mapSingle i = some addr → addr = bus.getD i 0) (hcr : mgmt = false → bus = phys)
    (hr : rest = phys.drop i) (hi : i ≤ phys.length)
    (hc : mapChunks mgmt mapSingle fuel i rest = some chunks) :
    Backed id chunks (bus.drop i) := by
  have hl := h.length
  induction fuel generalizing i rest chunks with
  | zero =>
    cases rest with
    | nil =>
      cases hc
      have hn := drop_eq_nil_iff.mp hr.symm
      exact drop_eq_nil_iff.mpr (by omega)
    | cons page rest => cases hc
  | succ fuel ih =>
    cases rest with
    | nil =>
      cases hc
      have hn := drop_eq_nil_iff.mp hr.symm
      exact drop_eq_nil_iff.mpr (by omega)
    | cons page rest =>
      obtain ⟨addr,ha,hc⟩ := bind_eq_some_iff.mp hc
      obtain ⟨more,hm,hc⟩ := bind_eq_some_iff.mp hc
      cases hc
      have hln : (phys.drop i).length = rest.length + 1 := by rw [← hr,length_cons]
      rw [length_drop] at hln
      have hcn := nrContigPages_le page rest
      have hpg : page = phys.getD i 0 := by
        have hh := getD_drop phys i 0
        rw [← hr] at hh
        exact hh
      have hs : addr = bus.getD i 0 := by
        cases mgmt with
        | true => exact hmp i addr ha
        | false =>
          cases ha
          rw [hcr rfl,hpg]
      have hg : ∀ k < nrContigPages page rest,bus.getD (i + (k + 1)) 0 = bus.getD (i + k) 0 +
        pageSize := by
        intro k hk
        have hp := nrContigPages_goes hk
        rw [hr,getD_drop,getD_drop] at hp
        exact h.goes (i + k) (by omega) hp
      have hrn : ∀ k < nrContigPages page rest + 1,(bus.drop i).getD k 0 = addr + k * pageSize := by
        intro k
        induction k with
        | zero =>
          intro _
          rw [getD_drop,hs,zero_mul,add_zero,add_zero]
        | succ k ihk =>
          intro hk
          have hb := ihk (by omega)
          rw [getD_drop] at hb
          rw [getD_drop,hg k (by omega),hb,Nat.succ_mul,add_assoc]
      refine ⟨Nat.succ_pos _,?_,?_,chunk_bytes hrn,?_⟩
      · have hlt : i < bus.length := by omega
        have hmm : bus.getD i 0 ∈ bus := by
          rw [List.getD,getElem?_eq_getElem hlt]
          exact getElem_mem hlt
        rw [hs]
        exact h.aligned _ hmm
      · rw [length_drop]
        dsimp only
        omega
      · rw [drop_drop]
        refine ih ?_ (by dsimp only; omega) hm
        have ht : rest = phys.drop (i + 1) := by
          rw [← drop_drop,← hr]
          rfl
        rw [ht,drop_drop]
        congr 1
        dsimp only
        omega

/-- Somewhere a chunk is followed twice by the page behind its beginning: two neighbouring pages are
one chunk, all others chunks of their own. -/
def repeats : List Nat → Bool
  | a :: b :: c :: rest =>
    if b = a + pageSize then
      if c = b then true else repeats (c :: rest)
    else repeats (b :: c :: rest)
  | _ => false

theorem coalesce_pos (addr : Nat) (rest : List Nat) :
    coalesce addr (addr + pageSize) ((addr + pageSize) :: rest) = coalesce addr
    (addr + pageSize) rest + 1 :=
  if_pos rfl

theorem coalesce_stop (h : next ≠ last) (rest : List Nat) : coalesce addr last (next :: rest) = 0 :=
    if_neg h

theorem dmaChunks_length_le (fuel : Nat) (bus : List Nat) :
    (dmaChunks fuel bus).length ≤ bus.length := by
  induction fuel generalizing bus with
  | zero => cases bus <;> exact Nat.zero_le _
  | succ fuel ih =>
    cases bus with
    | nil => exact le_rfl
    | cons addr rest =>
      have hle := ih (rest.drop (coalesce addr (addr + pageSize) rest))
      rw [length_drop] at hle
      rw [dmaChunks,length_cons,length_cons]
      omega

theorem dmaChunks_alone (h : coalesce addr (addr + pageSize) rest = 0) :
    dmaChunks (fuel + 1) (addr :: rest) = ⟨addr,1⟩ :: dmaChunks fuel rest := by
  rw [dmaChunks,h]
  rfl

theorem dmaChunks_pair (h : coalesce addr (addr + pageSize) rest = 0) :
    dmaChunks (fuel + 1) (addr :: (addr + pageSize) :: rest) = ⟨addr,2⟩ :: dmaChunks fuel rest := by
  rw [dmaChunks,coalesce_pos,h]
  rfl

theorem backed_alone (ha : addr % pageSize = 0) (hr : Backed id chunks rest) :
    Backed id (⟨addr,1⟩ :: chunks) (addr :: rest) := by
  refine ⟨Nat.one_pos,ha,Nat.succ_pos _,?_,hr⟩
  refine chunk_bytes ?_
  intro i hi
  obtain rfl := Nat.lt_one_iff.mp hi
  rfl

theorem backed_pair (ha : addr % pageSize = 0) (hr : Backed id chunks rest) :
    Backed id (⟨addr,2⟩ :: chunks) (addr :: (addr + pageSize) :: rest) := by
  refine ⟨Nat.two_pos,ha,Nat.succ_le_succ (Nat.succ_pos _),?_,hr⟩
  refine chunk_bytes ?_
  intro i hi
  match i,hi with
  | 0,_ | 1,_ => rfl

/-- Without a repetition the chunks are the pages. -/
theorem dmaChunks_backed (ha : ∀ addr ∈ bus,addr % pageSize = 0) (hf : bus.length ≤ fuel)
    (hr : repeats bus = false) : Backed id (dmaChunks fuel bus) bus := by
  induction fuel generalizing bus with
  | zero =>
    obtain rfl := eq_nil_of_length_eq_zero (Nat.le_zero.mp hf)
    rfl
  | succ fuel ih =>
    match bus with
    | [] => rfl
    | [a] => exact backed_alone (ha a (by simp)) (ih (by simp) (Nat.zero_le _) rfl)
    | [a,b] =>
      by_cases hb : b = a + pageSize
      · rw [hb,dmaChunks_pair rfl]
        exact backed_pair (ha a (by simp)) (ih (by simp) (Nat.zero_le _) rfl)
      · rw [dmaChunks_alone (coalesce_stop hb [])]
        exact backed_alone (ha a (by simp))
          (ih (forall_mem_cons.mp ha).2 (Nat.le_of_succ_le_succ hf) rfl)
    | a :: b :: c :: rest =>
      have ha' : ∀ x ∈ c :: rest,x % pageSize = 0 := fun x hx => ha x (.tail a (.tail b hx))
      rw [repeats] at hr
      by_cases hb : b = a + pageSize
      · rw [if_pos hb] at hr
        by_cases hc : c = b
        · rw [if_pos hc] at hr
          cases hr
        rw [if_neg hc] at hr
        rw [hb] at hc ⊢
        rw [dmaChunks_pair (coalesce_stop hc rest)]
        refine backed_pair (ha a (by simp)) (ih ha' ?_ hr)
        exact Nat.le_of_succ_le (Nat.le_of_succ_le_succ hf)
      · rw [if_neg hb] at hr
        rw [dmaChunks_alone (coalesce_stop hb _)]
        exact backed_alone (ha a (by simp))
          (ih (forall_mem_cons.mp ha).2 (Nat.le_of_succ_le_succ hf) hr)

theorem findChunk_behind (h : off = iter.offset + (k + c.numPages) * pageSize) :
    findChunk off (c :: cs) iter =
      findChunk off cs ⟨iter.index + 1,iter.offset + c.numPages * pageSize⟩ := by
  refine if_neg ?_
  rintro ⟨-,hlt⟩
  rw [add_mul] at h
  omega

/-- What goes wrong with a repetition: there are less chunks than pages, and for one page another
address is found. -/
structure Wrong (chunks : List Chunk) (bus : List Nat) (k : Nat) : Prop where
  less : chunks.length < bus.length
  page : k < bus.length
  found : ∀ iter off,off = iter.offset + k * pageSize → ∃ d,findChunk off chunks iter = some d ∧
    d.addr ≠ bus.getD k 0

theorem Wrong.alone (h : Wrong chunks rest k) : Wrong (⟨a,1⟩ :: chunks) (a :: rest) (k + 1) where
  less := Nat.succ_lt_succ h.less
  page := Nat.succ_lt_succ h.page
  found := by
    intro iter off ho
    rw [findChunk_behind (c := ⟨a,1⟩) ho]
    refine h.found _ off ?_
    dsimp only
    rw [ho,add_mul]
    omega

theorem Wrong.pair (h : Wrong chunks rest k) : Wrong (⟨a,2⟩ :: chunks) (a :: b :: rest) (k + 2) where
  less := Nat.succ_lt_succ (Nat.lt_succ_of_lt h.less)
  page := Nat.succ_lt_succ (Nat.succ_lt_succ h.page)
  found := by
    intro iter off ho
    rw [findChunk_behind (c := ⟨a,2⟩) ho]
    refine h.found _ off ?_
    dsimp only
    rw [ho,add_mul]
    omega

theorem wrong_here :
    Wrong (dmaChunks (fuel + 1) (a :: (a + pageSize) :: (a + pageSize) :: rest))
      (a :: (a + pageSize) :: (a + pageSize) :: rest) 2 := by
  rw [dmaChunks,coalesce_pos,coalesce_pos]
  have hle := dmaChunks_length_le fuel (rest.drop (coalesce a (a + pageSize) rest))
  rw [length_drop] at hle
  refine ⟨?_,?_,?_⟩
  · rw [drop_succ_cons,drop_succ_cons]
    simp only [length_cons]
    omega
  · simp only [length_cons]
    omega
  intro iter off ho
  rw [findChunk]
  have hin : iter.offset ≤ off ∧ off < iter.offset + (coalesce a (a + pageSize) rest + 1 + 1 +
    1) * pageSize := by
    rw [ho]
    refine ⟨Nat.le_add_right _ _,?_⟩
    refine Nat.add_lt_add_left ?_ _
    exact Nat.mul_lt_mul_of_pos_right (by omega) (by decide)
  rw [if_pos hin]
  refine ⟨_,rfl,?_⟩
  show a + (off - iter.offset) ≠ a + pageSize
  rw [ho]
  unfold pageSize
  omega

theorem dmaChunks_wrong (hf : bus.length ≤ fuel) (hr : repeats bus = true) :
    ∃ k,Wrong (dmaChunks fuel bus) bus k := by
  induction fuel generalizing bus with
  | zero =>
    obtain rfl := eq_nil_of_length_eq_zero (Nat.le_zero.mp hf)
    cases hr
  | succ fuel ih =>
    match bus with
    | [] | [_] | [_,_] => cases hr
    | a :: b :: c :: rest =>
      rw [repeats] at hr
      by_cases hb : b = a + pageSize
      · rw [if_pos hb] at hr
        subst hb
        by_cases hc : c = a + pageSize
        · rw [hc]
          exact ⟨2,wrong_here⟩
        · rw [if_neg hc] at hr
          obtain ⟨k,hk⟩ := ih (Nat.le_of_succ_le (Nat.le_of_succ_le_succ hf)) hr
          rw [dmaChunks_pair (coalesce_stop hc rest)]
          exact ⟨k + 2,hk.pair⟩
      · rw [if_neg hb] at hr
        obtain ⟨k,hk⟩ := ih (Nat.le_of_succ_le_succ hf) hr
        rw [dmaChunks_alone (coalesce_stop hb _)]
        exact ⟨k + 1,hk.alone⟩

theorem not_translates_of_wrong (ho : w.offset % pageSize = 0) (hln : bus.length = w.nrPages)
    (h : Wrong w.chunks bus k) : ¬ Translates w bus := by
  intro ht
  have hk : k * pageSize < w.nrPages * pageSize :=
    Nat.mul_lt_mul_of_pos_right (hln ▸ h.page) (by decide)
  obtain ⟨addr,nrBytes,hf,htr⟩ := ht.found (w.offset + k * pageSize) (Nat.le_add_right _ _)
    (Nat.add_lt_add_left hk _)
  have hs : ¬ w.nrPages = w.chunks.length := by
    have hl := h.less
    omega
  obtain ⟨d,hd,hne⟩ := h.found (scifInitWindowIter w) (w.offset + k * pageSize) rfl
  rw [offToDma,scifOffToDmaAddr,if_neg hs] at hf
  have hsm : some (d.addr,d.nrBytes) = some (addr,nrBytes) := by
    rw [← hf]
    exact (congrArg (Option.map (fun d => (d.addr,d.nrBytes))) hd).symm
  cases hsm
  refine hne ?_
  rw [htr.first,busByte,Nat.add_sub_cancel_left,Nat.mul_div_cancel _ (by decide),
    Nat.add_mul_mod_self_right,
    ho,add_zero]

/-- The bus addresses of the pages: those of the contiguous ranges mapped directly, or whatever
`dma_map_sg` gives. -/
def Assigned (phys : List Nat) (mapping : Mapping) (bus : List Nat) : Prop :=
  match mapping with
  | .direct mgmt mapSingle =>
    Linear phys bus ∧ (∀ i addr,mapSingle i = some addr → addr = bus.getD i 0) ∧
      (mgmt = false → bus = phys)
  | .iommu entries => entries = bus ∧ bus.length = phys.length ∧ ∀ addr ∈ bus,addr % pageSize = 0

/-- With the IOMMU, no page follows its predecessor's chunk twice. -/
def Distinct : Mapping → Prop
  | .direct _ _ => True
  | .iommu entries => repeats entries = false

/-- Translation agrees with the page array exactly when `scif_dma_map` meets no repeated page. -/
theorem translation_iff (w : Window) (phys bus : List Nat) (mapping : Mapping)
    (hoff : w.offset % pageSize = 0)
    (hpages : phys.length = w.nrPages) (hassigned : Assigned phys mapping bus)
    (hmapped : scifMapWindow phys mapping = some w.chunks) : Translates w bus ↔ Distinct mapping := by
  cases mapping with
  | direct mgmt mapSingle =>
    obtain ⟨hl,hm,hcr⟩ := hassigned
    refine iff_of_true (translates_of_backed hoff (hl.length.trans hpages) ?_) trivial
    exact mapChunks_backed hl hm hcr rfl (Nat.zero_le _) hmapped
  | iommu entries =>
    obtain ⟨rfl,hln,ha⟩ := hassigned
    have hc : dmaChunks entries.length entries = w.chunks := some.inj hmapped
    constructor
    · intro ht
      cases hr : repeats entries with
      | false => exact hr
      | true =>
        obtain ⟨k,hw⟩ := dmaChunks_wrong le_rfl hr
        rw [hc] at hw
        exact absurd ht (not_translates_of_wrong hoff (hln.trans hpages) hw)
    · intro hr
      refine translates_of_backed hoff (hln.trans hpages) ?_
      rw [← hc]
      exact dmaChunks_backed ha le_rfl hr

def threeEntries : List Nat := [0x10000,0x11000,0x40000]

def threePages : Window := ⟨.self,0,3,[0x5000,0x9000,0x2000],dmaChunks 3 threeEntries⟩

theorem three_pages_translated : Translates threePages threeEntries ∧ Distinct (.iommu threeEntries) :=
  ⟨(translation_iff threePages threePages.pages threeEntries (.iommu threeEntries) rfl rfl
      ⟨rfl,rfl,by decide⟩ rfl).mpr rfl,rfl⟩

/-- One page twice behind its predecessor: the second time it is found behind both. -/
theorem repeated_page_mistranslated :
    scifMapWindow [0x5000,0x9000,0x9000] (.iommu [0x10000,0x11000,0x11000]) = some [⟨0x10000,3⟩] ∧
      offToDma ⟨.self,0,3,[0x5000,0x9000,0x9000],[⟨0x10000,3⟩]⟩ 0x2000 = some (0x12000,0x1000) ∧
      ¬ Translates ⟨.self,0,3,[0x5000,0x9000,0x9000],[⟨0x10000,3⟩]⟩ [0x10000,0x11000,0x11000] := by
  refine ⟨rfl,rfl,?_⟩
  intro ht
  obtain ⟨addr,nrBytes,hf,htr⟩ := ht.found 0x2000 (by decide) (by decide)
  cases hf
  exact absurd htr.first (by decide)

end Mpss.Proofs.Translation
