import Mpss.Proofs.FatClusters

namespace Mpss.Proofs.FatNames
open Systools.FatReader Systools.FatVolume FatClusters List

variable {f : Stored}

theorem getD_behind (h : xs.length = n) {a d : UInt8} : (xs ++ a :: ys).getD n d = a := by
  rw [getD_eq_getElem?_getD,getElem?_append_right (by omega),h,Nat.sub_self]
  rfl

theorem characters_length : (characters units).length = 2 * units.length := by
  induction units with
  | nil => rfl
  | cons u units ih =>
    rw [characters,flatMap_cons,length_append,littleEndian_length,← characters,ih,length_cons]
    omega

theorem characters_append : characters (xs ++ ys) = characters xs ++ characters ys := flatMap_append

def kept (units : List UInt16) : List UInt8 := (characters units).filter (fun c => c != 0xff && c != 0)

theorem kept_append : kept (xs ++ ys) = kept xs ++ kept ys := by
  rw [kept,characters_append,filter_append]
  rfl

theorem kept_flatten {parts : List (List UInt16)} : kept parts.flatten = (parts.map kept).flatten := by
  induction parts with
  | nil => rfl
  | cons part parts ih => rw [flatten_cons,kept_append,ih,map_cons,flatten_cons]

theorem kept_name (h : ∀ u ∈ units,u ≠ 0 ∧ u.toNat < 0xff) :
    (kept units).map UInt8.toNat = units.map UInt16.toNat := by
  induction units with
  | nil => rfl
  | cons u units ih =>
    obtain ⟨⟨hz,hl⟩,hr⟩ := forall_mem_cons.mp h
    have hp : u.toNat ≠ 0 := fun h0 => hz (UInt16.toNat_inj.mp h0)
    have hby : (UInt8.ofNat u.toNat).toNat = u.toNat := by
      rw [UInt8.toNat_ofNat']
      omega
    have hh : u.toNat / 256 % 256 = 0 := by omega
    have ho : kept [u] = [UInt8.ofNat u.toNat] := by
      have hm : u.toNat % 256 = u.toNat := by omega
      have hne : UInt8.ofNat u.toNat ≠ 0xff := fun he => by
        have := congrArg UInt8.toNat he
        rw [hby] at this
        exact absurd this (ne_of_lt hl)
      have hn0 : UInt8.ofNat u.toNat ≠ 0 := fun he => hp (hby.symm.trans (congrArg UInt8.toNat he))
      have hb : characters [u] = [UInt8.ofNat u.toNat,0] := by
        show [UInt8.ofNat (u.toNat % 256),UInt8.ofNat (u.toNat / 256 % 256)] = _
        rw [hm,hh]
        rfl
      rw [kept,hb,filter_cons_of_pos]
      · rfl
      · exact Bool.and_eq_true_iff.mpr ⟨bne_iff_ne.mpr hne,bne_iff_ne.mpr hn0⟩
    calc (kept (u :: units)).map UInt8.toNat = (kept [u] ++ kept units).map UInt8.toNat := by
          rw [← kept_append,singleton_append]
      _ = u.toNat :: (kept units).map UInt8.toNat := by rw [ho,singleton_append,map_cons,hby]
      _ = (u :: units).map UInt16.toNat := by rw [ih hr,map_cons]

theorem kept_padding (h : Padding pad) : kept pad = [] := by
  rcases h with rfl | ⟨_,k,rfl⟩
  · rfl
  have hr : ∀ n,kept (replicate n 0xffff) = [] := by
    intro n
    induction n with
    | zero => rfl
    | succ n ih =>
      rw [replicate_succ,← singleton_append,kept_append,ih]
      rfl
  rw [← singleton_append,kept_append,hr]
  rfl

theorem kept_parts (h : f.Named) (hl : ∀ u ∈ f.long,u.toNat < 0xff) :
    ((f.parts.map kept).flatten).map UInt8.toNat = f.long.map UInt16.toNat := by
  obtain ⟨pad,hp,hf,_⟩ := h.padding
  rw [← kept_flatten,hf,kept_append,kept_padding hp,append_nil]
  apply kept_name
  intro u hu
  exact ⟨(h.long_units u hu).1,hl u hu⟩

theorem longEntry_length (sequence checksum : UInt8) (hp : part.length = 13) :
    (longEntry sequence checksum part).length = 32 := by
  simp only [longEntry,length_cons,length_append,characters_length,length_take,length_drop,hp]
  rfl

theorem longEntry_first {sequence : UInt8} (checksum : UInt8) (part : List UInt16) :
    (longEntry sequence checksum part).getD 0 0 = sequence := rfl

theorem longEntry_attributes (sequence checksum : UInt8) (hp : part.length = 13) :
    (longEntry sequence checksum part).getD 11 0 = 0x0f := by
  have hl : (sequence :: characters (part.take 5)).length = 11 := by simp [characters_length,hp]
  exact getD_behind hl

theorem longEntry_portion {sequence : UInt8} (hpr : part.length = 13) :
    getLongNamePortionFromEntry (longEntry sequence checksum part) = kept part := by
  have hfv : (characters (part.take 5)).length = 10 := by simp [characters_length,hpr]
  have hsx : (characters ((part.drop 5).take 6)).length = 12 := by simp [characters_length,hpr]
  have htw : (characters (part.drop 11)).length = 4 := by simp [characters_length,hpr]
  set e := longEntry sequence checksum part
  have hf : (e.drop 1).take 10 = characters (part.take 5) := take_left' hfv
  have hsc : (e.drop 14).take 12 = characters ((part.drop 5).take 6) := by
    have hs : e = (sequence :: characters (part.take 5) ++ [0x0f,0,checksum]) ++
        (characters ((part.drop 5).take 6) ++ (0 :: 0 :: characters (part.drop 11))) := by
      simp [e,longEntry]
    rw [hs,drop_left' (by simp [hfv])]
    exact take_left' hsx
  have ht : (e.drop 28).take 4 = characters (part.drop 11) := by
    have hs : e = (sequence :: characters (part.take 5) ++ [0x0f,0,checksum] ++
        (characters ((part.drop 5).take 6) ++ [0,0])) ++ characters (part.drop 11) := by
      simp [e,longEntry]
    rw [hs,drop_left' (by simp [hfv,hsx])]
    exact take_of_length_le (le_of_eq htw)
  have hp : part = part.take 5 ++ ((part.drop 5).take 6 ++ part.drop 11) := by
    have hd : part.drop 11 = (part.drop 5).drop 6 := by rw [drop_drop]
    rw [hd,take_append_drop,take_append_drop]
  rw [getLongNamePortionFromEntry,hf,hsc,ht]
  conv_rhs => rw [hp]
  rw [kept,characters_append,characters_append,append_assoc]

theorem padded_length (h : s.length ≤ n) : (padded n s).length = n := by
  rw [padded,length_append,length_replicate]
  omega

theorem padded_filter (h : 0x20 ∉ s) : (padded n s).filter (· != 0x20) = s := by
  have hs : s.filter (· != 0x20) = s := by
    apply filter_eq_self.mpr
    intro c hc
    exact bne_iff_ne.mpr (fun he => h (he ▸ hc))
  have hp : (replicate (n - s.length) (0x20 : UInt8)).filter (· != 0x20) = [] := by simp
  rw [padded,filter_append,hs,hp,append_nil]

theorem lowered_eq (c : UInt8) : lowered lower c = lowerCase lower c := by
  unfold lowered lowerCase
  by_cases hc : lower = true ∧ 65 ≤ c ∧ c ≤ 90
  · rw [if_pos hc,if_pos ⟨hc.2.1,hc.2.2,hc.1⟩]
    obtain ⟨_,hlw,hh⟩ := hc
    have ha : ∀ n < 26,UInt8.ofNat (65 + n) ||| 0x20 = UInt8.ofNat (65 + n) + 32 := by decide
    have hl' : 65 ≤ c.toNat := UInt8.le_iff_toNat_le.mp hlw
    have hh' : c.toNat ≤ 90 := UInt8.le_iff_toNat_le.mp hh
    have ho := ha (c.toNat - 65) (by omega)
    have hs : 65 + (c.toNat - 65) = c.toNat := by omega
    rw [hs,UInt8.ofNat_toNat] at ho
    exact ho
  · rw [if_neg hc,if_neg]
    rintro ⟨hlw,hh,hl⟩
    exact hc ⟨hl,hlw,hh⟩

/-- A name with an extension, without a blank inside and without a substituted first character. -/
structure Plain (f : Stored) : Prop where
  ext : f.ext ≠ []
  base_solid : 0x20 ∉ f.base
  ext_solid : 0x20 ∉ f.ext
  first : f.base.head? ≠ some 0x05

theorem restored_eq (h : base.head? ≠ some 0x05) : restored base = base := by
  cases base with
  | nil => rfl
  | cons c rest =>
    have hc : c ≠ 0x05 := fun he => h (by rw [he]; rfl)
    unfold restored
    split
    · rename_i heq
      cases heq
      exact absurd rfl hc
    · rfl

def caseByte (f : Stored) : UInt8 := (if f.lowerBase then 0x08 else 0) + if f.lowerExt then 0x10 else 0

section
variable (h : f.Named)
include h

theorem shortEntry_length : f.shortEntry.length = 32 := by
  simp [Stored.shortEntry,padded_length h.base_length,padded_length h.ext_length,h.times,
    littleEndian_length]

theorem shortEntry_first : f.shortEntry.getD 0 0 ≠ 0 := by
  obtain ⟨c,hc,hz,_⟩ := h.first
  cases hb : f.base with
  | nil =>
    rw [hb] at hc
    cases hc
  | cons c' rest =>
    rw [hb] at hc
    cases hc
    simp only [Stored.shortEntry,hb,padded,cons_append,getD_cons_zero]
    exact hz

theorem shortEntry_attributes : f.shortEntry.getD 11 0 = f.attributes := by
  have hl : (padded 8 f.base ++ padded 3 f.ext).length = 11 := by
    rw [length_append,padded_length h.base_length,padded_length h.ext_length]
  rw [Stored.shortEntry,← append_assoc]
  exact getD_behind hl

theorem shortEntry_parts : ∃ front : List UInt8,front.length = 26 ∧
    f.shortEntry = front ++ (littleEndian 2 (f.chain.headD 0) ++ littleEndian 4 f.size) := by
  refine ⟨padded 8 f.base ++ (padded 3 f.ext ++ (f.attributes :: caseByte f :: f.times)),?_,?_⟩
  · simp [padded_length h.base_length,padded_length h.ext_length,h.times]
  · simp [Stored.shortEntry,caseByte]

theorem shortEntry_size (hsz : f.size < 2 ^ 32) :
    (getShortNameFromEntry f.shortEntry).fileSize = f.size := by
  obtain ⟨front,hl,hs⟩ := shortEntry_parts h
  have hl' : (front ++ littleEndian 2 (f.chain.headD 0)).length = 28 := by
    rw [length_append,hl,littleEndian_length]
  show word ((f.shortEntry.drop 28).take 4) = f.size
  rw [hs,← append_assoc,drop_left' hl',take_of_length_le (by rw [littleEndian_length]),
    word_littleEndian]
  exact Nat.mod_eq_of_lt (by omega)

theorem shortEntry_cluster (hc : f.chain.headD 0 < 2 ^ 16) :
    (getShortNameFromEntry f.shortEntry).startingCluster = f.chain.headD 0 := by
  obtain ⟨front,hl,hs⟩ := shortEntry_parts h
  show word ((f.shortEntry.drop 26).take 2) = f.chain.headD 0
  rw [hs,drop_left' hl,take_left' (littleEndian_length),word_littleEndian]
  exact Nat.mod_eq_of_lt (by omega)

theorem shortEntry_name (hp : Plain f) :
    (getShortNameFromEntry f.shortEntry).fileName = f.shortName := by
  have hb : f.shortEntry.take 8 = padded 8 f.base := by exact take_left' (padded_length h.base_length)
  have he : (f.shortEntry.drop 8).take 3 = padded 3 f.ext := by
    rw [Stored.shortEntry,drop_left' (padded_length h.base_length)]
    exact take_left' (padded_length h.ext_length)
  have hc : f.shortEntry.getD 12 0 = caseByte f := by
    have hln : (padded 8 f.base ++ (padded 3 f.ext ++ [f.attributes])).length = 12 := by
      simp [padded_length h.base_length,padded_length h.ext_length]
    have hs : f.shortEntry = (padded 8 f.base ++ (padded 3 f.ext ++ [f.attributes])) ++ caseByte f
        :: (f.times ++ (littleEndian 2 (f.chain.headD 0) ++ littleEndian 4 f.size)) := by
      simp [Stored.shortEntry,caseByte]
    rw [hs]
    exact getD_behind hln
  have hl : ((caseByte f &&& 0x08) != 0) = f.lowerBase := by
    unfold caseByte
    cases f.lowerBase <;> cases f.lowerExt <;> rfl
  have hle : ((caseByte f &&& 0x10) != 0) = f.lowerExt := by
    unfold caseByte
    cases f.lowerBase <;> cases f.lowerExt <;> rfl
  have hf : ∀ l,lowered l = lowerCase l := fun l => funext (lowered_eq)
  simp only [getShortNameFromEntry,hb,he,hc,hl,hle,padded_filter hp.base_solid,
    padded_filter hp.ext_solid,hf,Stored.shortName,restored_eq hp.first,if_neg hp.ext]

end

end Mpss.Proofs.FatNames
