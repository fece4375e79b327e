import Mathlib.Data.List.Basic
import Mpss.Vop.Copy

namespace Mpss.Proofs.VopCopies
open Library.Bytes Vop.Copy Function

variable {d : Dev} {m : Mem β}

theorem alignment_pos (d : Dev) : 0 < d.dmaAlignment := Nat.two_pow_pos _

theorem le_align (n : Nat) (hk : 0 < k) : n ≤ alignUp n k := by
  have hd := Nat.div_add_mod (n + k - 1) k
  have hm := Nat.mod_lt (n + k - 1) hk
  rw [alignUp,mul_comm]
  omega

theorem align_of_dvd (hk : 0 < k) (hd : k ∣ n) : alignUp n k = n := by
  obtain ⟨q,rfl⟩ := hd
  have hdv : (k * q + k - 1) / k = q := by
    rw [Nat.add_sub_assoc hk,Nat.mul_add_div hk,Nat.div_eq_of_lt (by omega),add_zero]
  rw [alignUp,hdv,mul_comm]

theorem align_add (hk : 0 < k) (hd : k ∣ n) (i : Nat) : alignUp (n + i) k = n + alignUp i k := by
  obtain ⟨q,rfl⟩ := hd
  have hs : k * q + i + k - 1 = k * q + (i + k - 1) := by omega
  rw [alignUp,hs,Nat.mul_add_div hk,add_mul,mul_comm q k,alignUp]

theorem align_one : alignUp n 1 = n := align_of_dvd (by decide) (one_dvd n)

theorem alignment_dvd (ha : d.copyAlign ≤ 6) : d.dmaAlignment ∣ VOP_INT_DMA_BUF_SIZE := by
  have hb : VOP_INT_DMA_BUF_SIZE = 2 ^ 16 := rfl
  rw [hb]
  exact Nat.pow_dvd_pow 2 (by omega)

theorem to_user_turn (hl : len ≠ 0) (hp : partlen = min len VOP_INT_DMA_BUF_SIZE) :
    ∃ buf,toUserLoop d reach (fuel + 1) m ubuf len daddr off =
      toUserLoop d reach fuel ⟨blit m.user ubuf (fun j => m.card (reach (daddr + (off + j))))
        (partlen - off),m.card,buf⟩ (ubuf + partlen) (len - partlen) (daddr + partlen) 0 := by
  have hr : ∀ i < partlen - off,(dmaIn reach daddr (alignUp partlen d.dmaAlignment) m).buf
      (off + i) = m.card (reach (daddr + (off + i))) := by
    intro i hi
    have hle := le_align partlen (alignment_pos d)
    have hin : off + i < alignUp partlen d.dmaAlignment := by omega
    have hb := blit_at m.buf 0 (fun j => m.card (reach (daddr + j))) hin
    rw [zero_add] at hb
    exact hb
  refine ⟨(dmaIn reach daddr (alignUp partlen d.dmaAlignment) m).buf,?_⟩
  rw [toUserLoop,if_neg hl,← hp,← blit_congr hr]
  rfl

theorem buffer_pos : 0 < VOP_INT_DMA_BUF_SIZE := by decide

/-- Without an offset the loop copies what the addresses reach. -/
theorem to_user_loop (hf : len ≤ fuel) :
    (toUserLoop d reach fuel m ubuf len daddr 0).user = blit m.user ubuf
    (fun i => m.card (reach (daddr + i))) len := by
  induction fuel generalizing m ubuf len daddr with
  | zero =>
    obtain rfl : len = 0 := by omega
    exact (blit_zero).symm
  | succ fuel ih =>
    by_cases hl : len = 0
    · rw [toUserLoop,if_pos hl,hl]
      exact (blit_zero).symm
    have hb := buffer_pos
    obtain ⟨partlen,hp⟩ : ∃ partlen,partlen = min len VOP_INT_DMA_BUF_SIZE := ⟨_,rfl⟩
    obtain ⟨buf,ht⟩ := to_user_turn hl hp
    have hr : partlen + (len - partlen) = len := by omega
    rw [ht,ih (by omega)]
    simp only [Nat.sub_zero,zero_add,add_assoc daddr]
    rw [blit_append,hr]

theorem dma_out (hr : ∀ j < n,reach (daddr + j) = c + j) :
    (dmaOut reach daddr n m).card = blit m.card c m.buf n := by
  rw [← foldl_update_range]
  refine List.foldl_ext _ _ _ fun card j hj => ?_
  rw [hr j (List.mem_range.mp hj)]

theorem from_user_nothing : fromUserLoop d reach fuel m ubuf 0 daddr = m := by
  cases fuel with
  | zero => rfl
  | succ fuel => rw [fromUserLoop,if_pos rfl]

theorem from_user_turn (hl : len ≠ 0) (hp : partlen = min len VOP_INT_DMA_BUF_SIZE)
    (hr : ∀ j < alignUp partlen d.dmaAlignment,reach (daddr + j) = c + j) :
    ∃ m',fromUserLoop d reach (fuel + 1) m ubuf len daddr =
        fromUserLoop d reach fuel m' (ubuf + partlen) (len - partlen) (daddr + partlen) ∧
        m'.user = m.user ∧
      m'.card = blit m.card c m'.buf (alignUp partlen d.dmaAlignment) ∧ ∀ i < partlen,m'.buf i =
        m.user (ubuf + i) := by
  refine ⟨dmaOut reach daddr (alignUp partlen d.dmaAlignment)
    { m with buf := blit m.buf 0 (fun j => m.user (ubuf + j)) partlen },?_,rfl,dma_out hr,?_⟩
  · rw [fromUserLoop,if_neg hl,← hp]
  · intro i hi
    have hb := blit_at m.buf 0 (fun j => m.user (ubuf + j)) hi
    rw [zero_add] at hb
    exact hb

theorem nothing_written (ubuf c : Nat) :
    ∃ g : Nat → β,(∀ i < 0,g i = m.user (ubuf + i)) ∧ m.card = blit m.card c g
    (alignUp 0 d.dmaAlignment) := by
  refine ⟨m.buf,fun i hi => absurd hi (Nat.not_lt_zero i),?_⟩
  rw [align_of_dvd (alignment_pos d) (Nat.dvd_zero _),blit_zero]

/-- The loop writes the bytes of the user, and up to the alignment some others behind them. -/
theorem from_user_loop (m : Mem β) (ubuf : Nat) (ha : d.copyAlign ≤ 6) (hfu : len ≤ fuel)
    (hr : ∀ j < alignUp len d.dmaAlignment,reach (daddr + j) = c + j) :
    ∃ g,(∀ i < len,g i = m.user (ubuf + i)) ∧
      (fromUserLoop d reach fuel m ubuf len daddr).card = blit m.card c g
      (alignUp len d.dmaAlignment) := by
  have hk := alignment_pos d
  have hd := alignment_dvd ha
  have hfl := align_of_dvd hk hd
  have hps := buffer_pos
  induction fuel generalizing m ubuf len daddr c with
  | zero =>
    obtain rfl : len = 0 := by omega
    exact nothing_written ubuf c
  | succ fuel ih =>
    by_cases hln : len = 0
    · subst hln
      exact nothing_written ubuf c
    by_cases hl : len ≤ VOP_INT_DMA_BUF_SIZE
    · have hp : len = min len VOP_INT_DMA_BUF_SIZE := by omega
      obtain ⟨m',ht,hu,hc,hb⟩ := from_user_turn hln hp hr
      refine ⟨m'.buf,hb,?_⟩
      rw [ht,Nat.sub_self,from_user_nothing,hc]
    have hp : VOP_INT_DMA_BUF_SIZE = min len VOP_INT_DMA_BUF_SIZE := by omega
    have hsm : VOP_INT_DMA_BUF_SIZE + (len - VOP_INT_DMA_BUF_SIZE) = len := by omega
    have hs := align_add hk hd (len - VOP_INT_DMA_BUF_SIZE)
    rw [hsm] at hs
    have hf : ∀ j < alignUp VOP_INT_DMA_BUF_SIZE d.dmaAlignment,reach (daddr + j) = c + j := by
      intro j hj
      exact hr j (by omega)
    obtain ⟨m',ht,hu,hc,hb⟩ := from_user_turn hln hp hf
    rw [hfl] at hc
    have hsh : ∀ j < alignUp (len - VOP_INT_DMA_BUF_SIZE) d.dmaAlignment,
        reach (daddr + VOP_INT_DMA_BUF_SIZE + j) = c + VOP_INT_DMA_BUF_SIZE + j := by
      intro j hj
      rw [add_assoc,hr _ (by omega),add_assoc]
    obtain ⟨g,hg,hrs⟩ := ih m' (ubuf + VOP_INT_DMA_BUF_SIZE) (by omega) hsh
    let all : Nat → β := fun i => if i < VOP_INT_DMA_BUF_SIZE then m'.buf i
      else g (i - VOP_INT_DMA_BUF_SIZE)
    have hlw : ∀ i < VOP_INT_DMA_BUF_SIZE,all i = m'.buf i := fun i hi => if_pos hi
    have hh : ∀ i,all (VOP_INT_DMA_BUF_SIZE + i) = g i := by
      intro i
      have hi : ¬ VOP_INT_DMA_BUF_SIZE + i < VOP_INT_DMA_BUF_SIZE := by omega
      show (if _ then _ else _) = _
      rw [if_neg hi,Nat.add_sub_cancel_left]
    refine ⟨all,?_,?_⟩
    · intro i hi
      by_cases hin : i < VOP_INT_DMA_BUF_SIZE
      · rw [hlw i hin]
        exact hb i hin
      · obtain ⟨j,rfl⟩ := Nat.exists_eq_add_of_le (Nat.le_of_not_lt hin)
        rw [hh,hg j (by omega),hu,add_assoc]
    · rw [ht,hrs,hc,hs,← blit_append,blit_congr hlw]
      simp [hh]

theorem to_user_nothing : toUserLoop d reach fuel m ubuf 0 daddr off = m := by
  cases fuel with
  | zero => rfl
  | succ fuel => rw [toUserLoop,if_pos rfl]

/-- What stands behind the addresses of a transfer: card memory, the aperture, or the pages that
were mapped one after the other. -/
structure Mapped (d : Dev) (reach : Nat → Nat) (daddr len : Nat) : Prop where
  card : ¬ d.x200 → ∀ a,reach a = a
  aper : d.x200 → d.iommu = false → ∀ a,reach (d.aper + a) = a
  sg : d.x200 → d.iommu = true → ∀ j < numPages daddr len * PAGE_SIZE,
    reach (d.sgDmaAddress + j) = roundDown daddr PAGE_SIZE + j

/-- The user gets the bytes of the card, and nothing else changes. -/
def ToUserExact (d : Dev) (reach : Nat → Nat) (ubuf len daddr : Nat) : Prop :=
  ∀ m : Mem UInt8,(∀ i < len,(vopVirtioCopyToUser d reach m ubuf len daddr).user (ubuf + i) = m.card
    (daddr + i)) ∧
    ∀ a,a < ubuf ∨ ubuf + len ≤ a → (vopVirtioCopyToUser d reach m ubuf len daddr).user a = m.user a

/-- The card gets the bytes of the user, and nothing changes outside the descriptor. -/
def FromUserExact (d : Dev) (reach : Nat → Nat) (ubuf len daddr dlen : Nat) : Prop :=
  ∀ m : Mem UInt8,(∀ i < len,(vopVirtioCopyFromUser d reach m ubuf len daddr dlen).card
    (daddr + i) = m.user (ubuf + i)) ∧
    ∀ a,a < daddr ∨ daddr + dlen ≤ a → (vopVirtioCopyFromUser d reach m ubuf len daddr
    dlen).card a = m.card a

/-- With an IOMMU only the start of the card's memory is found. -/
def Found (d : Dev) (len daddr : Nat) : Prop := d.x200 → d.iommu = true → daddr = 0 ∨ len = 0

/-- A misaligned start and the data fit into the buffer together. -/
def Fits (d : Dev) (len daddr : Nat) : Prop :=
  daddr % d.dmaAlignment = 0 ∨ len + daddr % d.dmaAlignment ≤ VOP_INT_DMA_BUF_SIZE

theorem x200_alignment (hx : d.x200) : d.dmaAlignment = 1 := by rw [Dev.dmaAlignment,hx,pow_zero]

/-- The address at which the transfer of aligned data starts. -/
def startAddress (d : Dev) (daddr : Nat) : Nat := if d.x200 then vopDmaMap d daddr else daddr

theorem reach_start (hm : Mapped d reach daddr len) (hf : Found d len daddr) (hl : d.x200 → n ≤ len)
    (hi : i < n) : reach (startAddress d daddr + i) = daddr + i := by
  by_cases hx : d.x200
  · have hin := hl hx
    rw [startAddress,if_pos hx,vopDmaMap]
    cases hio : d.iommu with
    | false => rw [if_neg (by decide),add_assoc,hm.aper hx hio]
    | true =>
      obtain rfl : daddr = 0 := (hf hx hio).resolve_right (by omega)
      have hp : i < numPages 0 len * PAGE_SIZE := by
        simp only [numPages,PAGE_SIZE]
        omega
      rw [if_pos rfl,roundDown,Nat.zero_div,zero_mul,add_zero,hm.sg hx hio i hp,roundDown,
        Nat.zero_div,zero_mul]
  · rw [startAddress,if_neg hx,hm.card hx]

theorem sub_round_down : n - roundDown n k = n % k := by
  have := Nat.div_add_mod n k
  rw [roundDown,mul_comm]
  omega

theorem to_user_start (hd : d.disableDma = false) :
    vopVirtioCopyToUser d reach m ubuf len daddr = toUserLoop d reach
    (len + daddr % d.dmaAlignment) m ubuf
      (len + daddr % d.dmaAlignment) (startAddress d (daddr - daddr % d.dmaAlignment))
      (daddr % d.dmaAlignment) := by
  rw [vopVirtioCopyToUser,hd,if_neg (by decide),sub_round_down]
  rfl

theorem to_user_dma (hd : d.disableDma = false) (hft : Fits d len daddr) :
    (vopVirtioCopyToUser d reach m ubuf len daddr).user = blit m.user ubuf
      (fun j => m.card (reach
        (startAddress d (daddr - daddr % d.dmaAlignment) + (daddr % d.dmaAlignment + j)))) len := by
  rw [to_user_start hd]
  by_cases ho : daddr % d.dmaAlignment = 0
  · rw [ho,to_user_loop le_rfl]
    simp
  have ha := hft.resolve_left ho
  obtain ⟨fuel,hf⟩ : ∃ fuel,len + daddr % d.dmaAlignment = fuel + 1 :=
    ⟨len + daddr % d.dmaAlignment - 1,by omega⟩
  have hl : len + daddr % d.dmaAlignment ≠ 0 := by omega
  obtain ⟨buf,ht⟩ := to_user_turn hl (min_eq_left ha).symm
  rw [← hf] at ht
  rw [ht,Nat.sub_self,to_user_nothing,Nat.add_sub_cancel]

theorem to_user_exact (hm : Mapped d reach daddr len)
    (hfn : d.disableDma = true ∨ Fits d len daddr ∧ Found d len daddr) :
    ToUserExact d reach ubuf len daddr := by
  intro m
  have hc : (vopVirtioCopyToUser d reach m ubuf len daddr).user = blit m.user ubuf
    (fun i => m.card (daddr + i)) len := by
    cases hd : d.disableDma with
    | true => rw [vopVirtioCopyToUser,if_pos hd]
    | false =>
      obtain ⟨hft,hf⟩ := hfn.resolve_left (by simp [hd])
      rw [to_user_dma hd hft]
      refine blit_congr fun i hi => ?_
      by_cases hx : d.x200
      · have ho := x200_alignment hx
        have hof : daddr % d.dmaAlignment = 0 := by rw [ho,Nat.mod_one]
        rw [hof,Nat.sub_zero,zero_add,reach_start hm hf (fun _ => le_rfl) hi]
      · have hle := Nat.mod_le daddr d.dmaAlignment
        have hs : daddr - daddr % d.dmaAlignment + (daddr % d.dmaAlignment + i) = daddr + i := by omega
        rw [startAddress,if_neg hx,hm.card hx,hs]
  rw [hc]
  exact ⟨fun i hi => blit_at _ _ _ hi,fun a ha => blit_outside _ _ ha⟩

theorem from_user_exact (ha : d.copyAlign ≤ 6) (hl : len ≤ dlen) (hm : Mapped d reach daddr len)
    (hfn : d.disableDma = true ∨ Found d len daddr) : FromUserExact d reach ubuf len daddr dlen := by
  intro m
  by_cases hp : d.disableDma ∨ daddr % d.dmaAlignment ≠ 0 ∨ alignUp len d.dmaAlignment > dlen
  · rw [vopVirtioCopyFromUser,if_pos hp]
    refine ⟨fun i hi => blit_at m.card daddr (fun j => m.user (ubuf + j)) hi,fun a ha => ?_⟩
    have ho : a < daddr ∨ daddr + len ≤ a := by omega
    exact blit_outside m.card (fun j => m.user (ubuf + j)) ho
  rw [vopVirtioCopyFromUser,if_neg hp]
  rw [not_or,not_or,not_not,not_lt] at hp
  obtain ⟨hd,-,hft⟩ := hp
  have hf := hfn.resolve_left hd
  have hr : ∀ j < alignUp len d.dmaAlignment,reach (startAddress d daddr + j) = daddr + j := by
    intro j hj
    refine reach_start hm hf (fun hx => ?_) hj
    rw [x200_alignment hx,align_one]
  obtain ⟨g,hg,hc⟩ := from_user_loop m ubuf ha le_rfl hr
  rw [startAddress] at hc
  rw [hc]
  refine ⟨fun i hi => ?_,fun a ha => blit_outside _ _ (by omega)⟩
  rw [blit_at _ _ _ (hi.trans_le (le_align _ (alignment_pos d)))]
  exact hg i hi

def shifted (d : Dev) (daddr a : Nat) : Nat := roundDown daddr PAGE_SIZE + (a - d.sgDmaAddress)

theorem shifted_mapped (hx : d.x200) (hio : d.iommu = true) :
    Mapped d (shifted d daddr) daddr len := by
  refine ⟨fun h => absurd hx h,fun _ h => ?_,fun _ _ j _ => ?_⟩
  · rw [hio] at h
    cases h
  · rw [shifted,Nat.add_sub_cancel_left]

theorem shifted_start (hx : d.x200) (hio : d.iommu = true) :
    shifted d daddr (startAddress d daddr + i) = 2 * roundDown daddr PAGE_SIZE + i := by
  rw [startAddress,if_pos hx,vopDmaMap,if_pos hio,shifted]
  omega

theorem double_page (h : daddr ≠ 0) : 2 * roundDown daddr PAGE_SIZE ≠ daddr := by
  simp only [roundDown,PAGE_SIZE]
  omega

def mark (a : Nat) : Memory UInt8 := update (fun _ => 0) a 1

theorem mark_self : mark a a = 1 := update_self _ _ _

theorem mark_other (h : b ≠ a) : mark a b = 0 := update_of_ne h _ _

/-- Between the first piece and the second one the user's buffer is left as it was. -/
theorem to_user_gap (ho : 0 < off) (hin : off ≤ VOP_INT_DMA_BUF_SIZE)
    (hl : VOP_INT_DMA_BUF_SIZE < len + off) :
    (toUserLoop d reach (len + off) m ubuf (len + off) daddr off).user
      (ubuf + (VOP_INT_DMA_BUF_SIZE - off)) = m.user (ubuf + (VOP_INT_DMA_BUF_SIZE - off)) := by
  obtain ⟨fuel,hfl⟩ : ∃ fuel,len + off = fuel + 1 := ⟨len + off - 1,by omega⟩
  have hln : len + off ≠ 0 := by omega
  obtain ⟨buf,ht⟩ := to_user_turn hln (min_eq_right hl.le).symm
  rw [← hfl] at ht
  have hf : ubuf + (VOP_INT_DMA_BUF_SIZE - off) < ubuf ∨
      ubuf + (VOP_INT_DMA_BUF_SIZE - off) ≤ ubuf + (VOP_INT_DMA_BUF_SIZE - off) := .inr le_rfl
  rw [ht,to_user_loop (by omega),blit_outside]
  · exact blit_outside m.user (fun j => m.card (reach (daddr + (off + j)))) hf
  · omega

theorem fits_of_exact (ha : d.copyAlign ≤ 6) (hd : d.disableDma = false)
    (h : ∀ reach,Mapped d reach daddr len → ToUserExact d reach ubuf len daddr) :
    Fits d len daddr := by
  by_contra hf
  rw [Fits,not_or,not_le] at hf
  obtain ⟨ho,hl⟩ := hf
  have hx : ¬ d.x200 := fun hx => ho (by rw [x200_alignment hx,Nat.mod_one])
  have hm : Mapped d id daddr len := ⟨fun _ _ => rfl,fun h => absurd h hx,fun h => absurd h hx⟩
  have hlt := Nat.mod_lt daddr (alignment_pos d)
  have hb := Nat.le_of_dvd buffer_pos (alignment_dvd ha)
  have hc := (h id hm ⟨fun _ => 0,fun _ => 1,fun _ => 0⟩).1
    (VOP_INT_DMA_BUF_SIZE - daddr % d.dmaAlignment) (by omega)
  rw [to_user_start hd,to_user_gap (by omega) (by omega) hl] at hc
  exact absurd hc (by decide : (0 : UInt8) ≠ 1)

theorem found_of_to_user (hd : d.disableDma = false)
    (h : ∀ reach,Mapped d reach daddr len → ToUserExact d reach ubuf len daddr) :
    Found d len daddr := by
  intro hx hio
  by_contra hne
  rw [not_or] at hne
  have hf : Fits d len daddr := .inl (by rw [x200_alignment hx,Nat.mod_one])
  have hz : daddr % d.dmaAlignment = 0 := by rw [x200_alignment hx,Nat.mod_one]
  have hc := (h _ (shifted_mapped hx hio) ⟨fun _ => 0,mark daddr,fun _ => 0⟩).1 0 (by omega)
  rw [to_user_dma hd hf,blit_at _ _ _ (by omega),hz,Nat.sub_zero,shifted_start hx hio] at hc
  have hb : mark daddr (2 * roundDown daddr PAGE_SIZE) = mark daddr daddr := hc
  rw [mark_other (double_page hne.1),mark_self] at hb
  exact absurd hb (by decide)

theorem found_of_from_user (ha : d.copyAlign ≤ 6) (hl : len ≤ dlen) (hd : d.disableDma = false)
    (h : ∀ reach,Mapped d reach daddr len → FromUserExact d reach ubuf len daddr dlen) :
    Found d len daddr := by
  intro hx hio
  by_contra hne
  rw [not_or] at hne
  have ho := x200_alignment hx
  have hp : ¬ (d.disableDma ∨ daddr % d.dmaAlignment ≠ 0 ∨ alignUp len d.dmaAlignment > dlen) := by
    rw [hd,ho,Nat.mod_one,align_one]
    simp [hl]
  have hc := (h _ (shifted_mapped hx hio) ⟨mark ubuf,fun _ => 0,fun _ => 0⟩).1 0 (by omega)
  obtain ⟨g,hg,hcr⟩ := from_user_loop ⟨mark ubuf,fun _ => 0,fun _ => 0⟩ ubuf ha le_rfl
    fun j _ => shifted_start hx hio
  rw [vopVirtioCopyFromUser,if_neg hp,← startAddress,hcr,ho,align_one,add_zero,add_zero] at hc
  have hb : blit (fun _ => 0) (2 * roundDown daddr PAGE_SIZE) g len daddr = mark ubuf ubuf := hc
  have hm : ∀ i < len,g i = mark ubuf (ubuf + i) := hg
  rw [mark_self] at hb
  by_cases hin : 2 * roundDown daddr PAGE_SIZE ≤ daddr ∧ daddr < 2 * roundDown daddr PAGE_SIZE + len
  · have hdb := double_page hne.1
    rw [blit,if_pos hin,hm _ (by omega),mark_other (by omega)] at hb
    exact absurd hb (by decide)
  · rw [blit,if_neg hin] at hb
    exact absurd hb (by decide)

/-- The copies are exact iff DMA is off, or a misaligned start fits into the buffer and an IOMMU is
used at the start of the card's memory at most. -/
theorem vop_copies_exact_iff (d : Dev) (ubuf len daddr dlen : Nat) (ha : d.copyAlign ≤ 6)
    (hlen : len ≤ dlen) :
    ((∀ reach,Mapped d reach daddr len → ToUserExact d reach ubuf len daddr) ↔
      d.disableDma = true ∨ Fits d len daddr ∧ Found d len daddr) ∧
    ((∀ reach,Mapped d reach daddr len → FromUserExact d reach ubuf len daddr dlen) ↔
      d.disableDma = true ∨ Found d len daddr) := by
  refine ⟨⟨fun h => ?_,fun h reach hm => to_user_exact hm h⟩,⟨fun h => ?_,fun h reach hm =>
    from_user_exact ha hlen hm h⟩⟩
  · cases hd : d.disableDma with
    | true => exact .inl rfl
    | false => exact .inr ⟨fits_of_exact ha hd h,found_of_to_user hd h⟩
  · cases hd : d.disableDma with
    | true => exact .inl rfl
    | false => exact .inr (found_of_from_user ha hlen hd h)

theorem aligned_copies_exact :
    ToUserExact ⟨6,false,false,0,0⟩ id 5000 100000 640 ∧ FromUserExact
    ⟨6,false,false,0,0⟩ id 5000 100000 640 100032 := by
  have hm : Mapped ⟨6,false,false,0,0⟩ id 640 100000 := by
    refine ⟨fun _ _ => rfl,fun h => ?_,fun h => ?_⟩
    all_goals cases h
  have hi := vop_copies_exact_iff ⟨6,false,false,0,0⟩ 5000 100000 640 100032 (by decide) (by decide)
  exact ⟨hi.1.mpr (.inr ⟨.inl (by decide),fun h => by cases h⟩) id hm,hi.2.mpr
    (.inr fun h => by cases h) id hm⟩

/-- 70000 bytes from a misaligned address, and with an IOMMU one byte of the second page, are not
copied. -/
theorem copies_not_exact :
    ¬ (∀ reach,Mapped ⟨6,false,false,0,0⟩ reach 650 70000 → ToUserExact
    ⟨6,false,false,0,0⟩ reach 5000 70000 650) ∧
    ¬ (∀ reach,Mapped ⟨0,false,true,0,0⟩ reach 4096 1 → ToUserExact
    ⟨0,false,true,0,0⟩ reach 5000 1 4096) ∧
    ¬ ∀ reach,Mapped ⟨0,false,true,0,0⟩ reach 4096 1 → FromUserExact ⟨0,false,true,0,0⟩ reach 5000
    1 4096 1 := by
  refine ⟨fun h => ?_,fun h => ?_,fun h => ?_⟩
  · exact absurd (fits_of_exact (by decide) rfl h) (by unfold Fits; decide)
  · exact absurd (found_of_to_user rfl h rfl rfl) (by decide)
  · exact absurd (found_of_from_user (by decide) (by decide) rfl h rfl rfl) (by decide)

end Mpss.Proofs.VopCopies
