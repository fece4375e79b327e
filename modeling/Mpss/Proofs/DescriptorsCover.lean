import Mpss.X200.Dma

namespace Mpss.Proofs.DescriptorsCover
open X200.Dma List BitVec

/-- The source, the destination and the size that the engine reads in a descriptor. -/
def decode (d : MicDmaDesc) : BitVec 64 × BitVec 64 × BitVec 64 :=
  (d.qw0 >>> 48 <<< 32 ||| d.qw1 >>> 32,d.qw0 <<< 16 >>> 48 <<< 32 ||| d.qw1 <<< 32 >>> 32,
    d.qw0 <<< 37 >>> 37)

/-- The pieces follow each other, none of them empty, and end with the transfer. -/
def Covers : BitVec 64 → BitVec 64 → Nat → List MicDmaDesc → Prop
  | _,_,len,[] => len = 0
  | src,dst,len,d :: ds =>
    ∃ n,decode d = (src,dst,n) ∧ 0 < n.toNat ∧ n.toNat ≤ len ∧ Covers (src + n) (dst + n)
      (len - n.toNat) ds

theorem mask_bit (n m i : Nat) (h : m + n ≤ 64) :
    (BitVec.ofNat 64 ((2 ^ n - 1) <<< m)).getLsbD i = decide (m ≤ i ∧ i < m + n) := by
  rw [getLsbD_ofNat,Nat.testBit_shiftLeft,Nat.testBit_two_pow_sub_one]
  grind

theorem bit_above {x : BitVec 64} (h : x.toNat < 2 ^ n) (hi : n ≤ i) : x.getLsbD i = false :=
  Nat.testBit_lt_two_pow (h.trans_le (Nat.pow_le_pow_right (by decide) hi))

theorem decode_memcpy (hs : src.toNat < 2 ^ 48) (hd : dst.toNat < 2 ^ 48) (hn : n.toNat < 2 ^ 27) :
    decode (micDmaMemcpyDesc src dst n 0) = (src,dst,n) := by
  have hb : ∀ i,descBits32To47.getLsbD i = _ := fun i => mask_bit 16 32 i (by decide)
  have hz : ∀ i,(BitVec.ofNat 64 descSizeMask).getLsbD i = _ := fun i => mask_bit 27 0 i (by decide)
  have hv : ∀ i,descValid.getLsbD i = _ := fun i => mask_bit 1 31 i (by decide)
  have hl : ∀ i,descLowMask.getLsbD i = _ := fun i => mask_bit 32 0 i (by decide)
  have hf : ¬ (0 : BitVec 32) &&& dmaPrepInterrupt ≠ 0 := by decide
  refine Prod.ext ?_ (Prod.ext ?_ ?_)
  all_goals
    apply eq_of_getLsbD_eq
    intro i hi
    have h1 := bit_above hs (i := i)
    have h2 := bit_above hd (i := i)
    have h3 := bit_above hn (i := i)
    simp only [decode,micDmaMemcpyDesc,if_neg hf,getLsbD_or,getLsbD_and,getLsbD_shiftLeft,
      getLsbD_ushiftRight,hb,hz,hv,hl]
    grind

theorem copies_cover (hl : len ≤ n) (hs : src.toNat + len ≤ 2 ^ 48) (hd : dst.toNat + len ≤ 2 ^ 48) :
    ∃ ds,(programCopies ch src dst len n).programmed = ch.programmed ++ ds ∧
    Covers src dst len ds := by
  induction n generalizing ch src dst len with
  | zero => exact ⟨[],(append_nil _).symm,Nat.le_zero.mp hl⟩
  | succ n ih =>
    rw [programCopies]
    split_ifs with h
    · exact ⟨[],(append_nil _).symm,h⟩
    have hm : maxXferSize = 2 ^ 27 - 1 := rfl
    have hc : (BitVec.ofNat 64 (min len maxXferSize)).toNat = min len maxXferSize := by
      rw [toNat_ofNat,Nat.mod_eq_of_lt (by omega)]
    have ha : ∀ x : BitVec 64,x.toNat + len ≤ 2 ^ 48 →
        (x + BitVec.ofNat 64 (min len maxXferSize)).toNat + (len - min len maxXferSize) ≤ 2 ^ 48 := by
      intro x hx
      rw [toNat_add,hc,Nat.mod_eq_of_lt (by omega)]
      omega
    obtain ⟨ds,hp,hv⟩ := ih (by omega) (ha src hs) (ha dst hd)
    refine ⟨_ :: ds,hp.trans (append_assoc ..),_,decode_memcpy (by omega) (by omega)
      (by omega),by omega,by omega,?_⟩
    rwa [hc]

/-- Read back from the descriptors of a transfer, the pieces move each byte once and in order. -/
theorem descriptors_cover (h : micDmaProgMemcpyDesc ch src dst len flags = .ok t)
    (hs : src.toNat + len ≤ 2 ^ 48)
    (hd : dst.toNat + len ≤ 2 ^ 48) :
    ∃ ds,t.programmed = ch.programmed ++ ds ∧ Covers src dst len ds := by
  simp only [micDmaProgMemcpyDesc] at h
  split_ifs at h
  cases h
  exact copies_cover le_rfl hs hd

/-- A transfer one byte longer than a descriptor can move. -/
theorem split_transfer_covered :
    ∃ t ds,micDmaProgMemcpyDesc (Channel.init 0).ch 0 4096 (2 ^ 27) 0 = .ok t ∧ t.programmed = [] ++
      ds ∧ ds.length = 2 ∧ Covers 0 4096 (2 ^ 27) ds := by
  have hr : micDmaProgMemcpyDesc (Channel.init 0).ch 0 4096 (2 ^ 27) 0 =
      .ok (programCopies (Channel.init 0).ch 0 4096 (2 ^ 27) (2 ^ 27)) := by
    rw [micDmaProgMemcpyDesc,if_neg (by decide),if_neg (by decide)]
  obtain ⟨ds,hp,hc⟩ := descriptors_cover hr (by decide) (by decide)
  have hl : (programCopies (Channel.init 0).ch 0 4096 (2 ^ 27) (2 ^ 27)).programmed.length = 2 := rfl
  refine ⟨_,ds,hr,hp,?_,hc⟩
  rw [hp] at hl
  exact hl

end Mpss.Proofs.DescriptorsCover
