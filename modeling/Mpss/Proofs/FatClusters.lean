import Mpss.Systools.FatReader
import Mpss.Systools.FatVolume

namespace Mpss.Proofs.FatClusters
open Library.Bytes Systools.FatReader Systools.FatVolume List Option

theorem littleEndian_length : (littleEndian width n).length = width := by
  induction width generalizing n with
  | zero => rfl
  | succ width ih => simp [littleEndian,ih]

theorem word_littleEndian (n : Nat) : word (littleEndian width n) = n % 256 ^ width := by
  induction width generalizing n with
  | zero => simp [littleEndian,word,Nat.mod_one]
  | succ width ih =>
    have hr : word (littleEndian width (n / 256)) = n / 256 % 256 ^ width := ih (n / 256)
    calc word (littleEndian (width + 1) n) = n % 256 + 256 * word (littleEndian width (n / 256)) := by
          simp [littleEndian,word]
      _ = n % (256 * 256 ^ width) := by rw [hr,Nat.mod_mul]
      _ = n % 256 ^ (width + 1) := by rw [Nat.pow_succ']

theorem freadWord_placed (h : Placed image off (littleEndian width n)) (hn : n < 256 ^ width) :
    freadWord image off width = some n := by
  have hr : fread image off width = littleEndian width n := by
    have ht := h
    unfold Placed at ht
    rwa [littleEndian_length] at ht
  simp only [freadWord,hr,littleEndian_length,if_true,word_littleEndian,Nat.mod_eq_of_lt hn]

structure Agrees (b : BootSector) (g : Geometry) : Prop where
  clusterBytes : b.clusterBytes = g.clusterBytes
  fatStart : b.fatStart = g.fatStart
  dataStart : b.dataStart = g.dataStart
  bound : g.dataStart < 2 ^ 33

theorem clusterBytes_pos (g : Geometry) : 0 < g.clusterBytes := by
  obtain ⟨k,hk⟩ := g.cluster_pow
  unfold Geometry.clusterBytes
  rw [hk]
  exact Nat.mul_pos (Nat.pow_pos (by decide)) g.sector_pos

theorem clusterBytes_lt (g : Geometry) : g.clusterBytes < 2 ^ 24 := by
  calc g.clusterBytes ≤ 2 ^ 8 * g.sectorSize := Nat.mul_le_mul_right _ g.cluster_fits.le
    _ < 2 ^ 8 * 2 ^ 16 := Nat.mul_lt_mul_of_pos_left g.sector_fits (by decide)

theorem Agrees.clusterStart (h : Agrees b g) (hl : 2 ≤ cluster) (hh : cluster < 2 ^ 16) :
    fseek 64 (b.clusterStart cluster) = some (g.clusterStart cluster) := by
  have hb := clusterBytes_lt g
  have hbn := h.bound
  have hm : g.clusterBytes * (cluster - 2) ≤ 2 ^ 24 * 2 ^ 16 := Nat.mul_le_mul hb.le (by omega)
  have hw : (cluster + 2 ^ 64 - CLUSTEROFFSET) % 2 ^ 64 = cluster - 2 := by
    unfold CLUSTEROFFSET
    omega
  have heq : b.clusterStart cluster = g.clusterStart cluster := by
    unfold BootSector.clusterStart Geometry.clusterStart
    rw [hw,h.clusterBytes,h.dataStart,mul_comm (cluster - 2)]
    exact Nat.mod_eq_of_lt (by omega)
  have hf : g.clusterStart cluster < 2 ^ (64 - 1) := by
    unfold Geometry.clusterStart
    rw [mul_comm]
    omega
  rw [heq,fseek,if_pos hf]

/-- The cluster number 0, which a file without clusters has, may lead before the image. -/
theorem Agrees.clusterZero (h : Agrees b g) :
    (fseek 64 (b.clusterStart 0)).isSome = decide (2 * g.clusterBytes ≤ g.dataStart) := by
  have hb := clusterBytes_lt g
  have hbn := h.bound
  have hs : b.clusterStart 0 = (g.dataStart + g.clusterBytes * (2 ^ 64 - 2)) % 2 ^ 64 := by
    unfold BootSector.clusterStart CLUSTEROFFSET
    rw [h.clusterBytes,h.dataStart,zero_add]
    have hw : (2 ^ 64 - 2) % 2 ^ 64 = 2 ^ 64 - 2 := by decide
    rw [hw]
  by_cases hle : 2 * g.clusterBytes ≤ g.dataStart
  · have hv : b.clusterStart 0 = g.dataStart - 2 * g.clusterBytes := by
      omega
    have hf : g.dataStart - 2 * g.clusterBytes < 2 ^ (64 - 1) := by omega
    rw [hv,fseek,if_pos hf]
    simp [hle]
  · have hv : ¬b.clusterStart 0 < 2 ^ (64 - 1) := by
      omega
    rw [fseek,if_neg hv]
    simp [hle]

theorem readBlocks_done (hd : c.fileToGo = 0) : readBlocks image b start fuel c = .whole c.buffer := by
  cases fuel with
  | zero | succ fuel => simp [readBlocks,hd]

def took (b : BootSector) (c : Cursor) (bytes : List UInt8) : Cursor :=
  { c with
    pos := c.pos + bytes.length
    fileToGo := c.fileToGo - bytes.length
    clusterToGo := c.clusterToGo - bytes.length
    buffer := blit c.buffer (b.clusterBytes * c.count) (bytes.getD · 0) bytes.length }

theorem readBlocks_block (hgo : 0 < c.fileToGo) (hs : start ≠ 0xffff)
    (hr : fread image c.pos (min (min 4096 c.fileToGo) c.clusterToGo) = bytes)
    (hl : bytes.length = min (min 4096 c.fileToGo) c.clusterToGo)
    (hrm : b.clusterBytes * c.count + bytes.length ≤ MAXFILESIZE) :
    readBlocks image b start (fuel + 1) c =
      match nextCluster image b (took b c bytes) with
      | none => .failed
      | some next => readBlocks image b start fuel { next with count := next.count + 1 } := by
  have hm : ¬(c.fileToGo = 0 ∨ start = 0xffff) := by
    rintro (h | h)
    · omega
    · exact hs h
  rw [readBlocks,if_neg hm]
  dsimp only
  rw [hr,if_neg (not_lt.mpr hrm),if_neg (not_not.mpr hl)]
  rfl

theorem readBlocks_short (hgo : 0 < c.fileToGo) (hs : start ≠ 0xffff) (hr : image.length ≤ c.pos)
    (hc : 0 < c.clusterToGo) (hrm : b.clusterBytes * c.count ≤ MAXFILESIZE) :
    readBlocks image b start (fuel + 1) c = .failed := by
  have hm : ¬(c.fileToGo = 0 ∨ start = 0xffff) := by
    rintro (h | h)
    · omega
    · exact hs h
  have hn : ∀ n,fread image c.pos n = [] := by
    intro n
    rw [fread,drop_eq_nil_of_le hr,take_nil]
  have hsh : 0 ≠ min (min 4096 c.fileToGo) c.clusterToGo := by omega
  rw [readBlocks,if_neg hm]
  dsimp only
  rw [hn,length_nil,add_zero,if_neg (not_lt.mpr hrm),if_pos hsh]

/-- The cursor stands at the first of the clusters that are left, or behind the end mark. -/
structure Stands (g : Geometry) (left : List Nat) (c : Cursor) : Prop where
  cluster : match left with
    | [] => 0xfff8 ≤ c.cluster ∧ c.cluster < 2 ^ 16
    | first :: _ => c.cluster = first
  pos : c.pos = g.clusterStart c.cluster
  clusterToGo : c.clusterToGo = g.clusterBytes

theorem Stands.next (hb : Agrees b g) (hch : Chained image g (here :: rest)) (hc : c.cluster = here)
    (hg : c.clusterToGo = 0) : ∃ next,nextCluster image b c = some next ∧ Stands g rest next ∧
      next.fileToGo = c.fileToGo ∧ next.count = c.count ∧ next.buffer = c.buffer := by
  obtain ⟨_,_,⟨number,hn,hp,hw⟩,hr⟩ := hch
  have hf : freadWord image (b.fatStart + c.cluster * CLUSTEROFFSET) 2 = some number := by
    rw [hb.fatStart,hc,CLUSTEROFFSET,mul_comm]
    exact freadWord_placed hp (by omega)
  have hl : 2 ≤ number := by
    cases rest with
    | nil => omega
    | cons other _ =>
      rw [hw]
      exact hr.1
  have hs := hb.clusterStart hl hn
  refine ⟨{ c with cluster := number,pos := g.clusterStart number,clusterToGo := b.clusterBytes },?_,
    ⟨?_,rfl,hb.clusterBytes⟩,rfl,rfl,rfl⟩
  · rw [nextCluster,if_pos hg,hf,bind_eq_bind,bind_some,hs,bind_some]
  · cases rest with
    | nil => exact ⟨hw,hn⟩
    | cons other _ => exact hw

theorem Stands.block {data : List UInt8} (h : Stands g (here :: rest) c)
    (hs : g.clusterBytes ≤ 4096 ∨ c.fileToGo ≤ 4096)
    (hl : data.length = min c.fileToGo ((here :: rest).length * g.clusterBytes))
    (hp : Placed image (g.clusterStart here) (data.take g.clusterBytes)) :
    fread image c.pos (min (min 4096 c.fileToGo) c.clusterToGo) = data.take g.clusterBytes ∧
      (data.take g.clusterBytes).length = min (min 4096 c.fileToGo) c.clusterToGo ∧
      (data.take g.clusterBytes).length = min c.fileToGo g.clusterBytes := by
  have hm : g.clusterBytes ≤ (here :: rest).length * g.clusterBytes :=
    Nat.le_mul_of_pos_left _ (Nat.succ_pos _)
  have hc : (data.take g.clusterBytes).length = min c.fileToGo g.clusterBytes := by
    rw [length_take,hl]
    omega
  have hsm : min (min 4096 c.fileToGo) c.clusterToGo = min c.fileToGo g.clusterBytes := by
    rw [h.clusterToGo]
    omega
  refine ⟨?_,hc.trans hsm.symm,hc⟩
  have hcl : c.cluster = here := h.cluster
  rw [fread,hsm,← hc,h.pos,hcl]
  exact hp

theorem took_buffer (hb : Agrees b g) (data : List UInt8) :
    (∀ i < (data.take g.clusterBytes).length,
      (took b c (data.take g.clusterBytes)).buffer (g.clusterBytes * c.count + i) = data.getD i 0) ∧
    ∀ i < g.clusterBytes * c.count,(took b c (data.take g.clusterBytes)).buffer i = c.buffer i := by
  have hbf : (took b c (data.take g.clusterBytes)).buffer = blit c.buffer (g.clusterBytes * c.count)
      ((data.take g.clusterBytes).getD · 0) (data.take g.clusterBytes).length := by
    rw [← hb.clusterBytes]
    rfl
  rw [hbf]
  constructor
  · intro i hi
    have hc : i < g.clusterBytes := by
      rw [length_take] at hi
      omega
    rw [blit_at _ _ _ hi,getD_eq_getElem?_getD,getD_eq_getElem?_getD,getElem?_take_of_lt hc]
  · intro i hi
    exact blit_outside _ _ (.inl hi)

/-- From the first cluster that is left on: all the bytes are read if the chain has them, and
otherwise the reading fails. -/
theorem readBlocks_chain (hb : Agrees b g) (he : image.length < g.dataStart + 65525 * g.clusterBytes)
    (hsr : start ≠ 0xffff) (hc : Chained image g left)
    (hcn : Contents image g left data) (hs : Stands g left c)
    (hsm : g.clusterBytes ≤ 4096 ∨ c.fileToGo ≤ 4096)
    (hl : data.length = min c.fileToGo (left.length * g.clusterBytes)) (hfu : c.fileToGo ≤ fuel)
    (hrm : g.clusterBytes * c.count + c.fileToGo ≤ MAXFILESIZE) :
    if c.fileToGo ≤ left.length * g.clusterBytes then
      ∃ buffer,readBlocks image b start fuel c = .whole buffer ∧
        (∀ i < data.length,buffer (g.clusterBytes * c.count + i) = data.getD i 0) ∧
        ∀ i < g.clusterBytes * c.count,buffer i = c.buffer i
    else readBlocks image b start fuel c = .failed := by
  have hpo := clusterBytes_pos g
  induction left generalizing c data fuel with
  | nil =>
    obtain ⟨hlw,_⟩ := hs.cluster
    split_ifs with hnn
    · have hd : c.fileToGo = 0 := by simpa using hnn
      refine ⟨c.buffer,readBlocks_done hd,?_,fun _ _ => rfl⟩
      intro i hi
      omega
    have hgo : 0 < c.fileToGo := by simpa [Nat.pos_iff_ne_zero] using hnn
    have hfr : image.length ≤ c.pos := by
      rw [hs.pos,Geometry.clusterStart]
      have hml : 65525 * g.clusterBytes ≤ (c.cluster - 2) * g.clusterBytes :=
        Nat.mul_le_mul_right _ (by omega)
      omega
    cases fuel with
    | zero => omega
    | succ fuel =>
      refine readBlocks_short hgo hsr hfr ?_ ?_
      · rw [hs.clusterToGo]
        exact hpo
      · rw [hb.clusterBytes]
        omega
  | cons cluster rest ih =>
    obtain ⟨hp,ha⟩ := hcn
    by_cases hd : c.fileToGo = 0
    · rw [if_pos (by omega)]
      refine ⟨c.buffer,readBlocks_done hd,?_,fun _ _ => rfl⟩
      intro i hi
      omega
    obtain ⟨hrd,hln,hco⟩ := hs.block hsm hl hp
    cases fuel with
    | zero => omega
    | succ fuel =>
      have hpl : b.clusterBytes * c.count + (data.take g.clusterBytes).length ≤ MAXFILESIZE := by
        rw [hb.clusterBytes,hco]
        omega
      obtain ⟨hbf,hbe⟩ := took_buffer (c := c) hb data
      set part := data.take g.clusterBytes
      set c1 := took b c part
      have hm : (cluster :: rest).length * g.clusterBytes = rest.length * g.clusterBytes +
        g.clusterBytes := by
        rw [length_cons,Nat.succ_mul]
      rw [readBlocks_block (by omega) hsr hrd hln hpl]
      by_cases hls : c.fileToGo < g.clusterBytes
      · have hal : data.length = part.length := by omega
        have hsy : nextCluster image b c1 = some c1 := by
          refine if_neg ?_
          show c.clusterToGo - _ ≠ 0
          rw [hs.clusterToGo,hco]
          omega
        have hz : c1.fileToGo = 0 := by
          show c.fileToGo - _ = 0
          omega
        rw [if_pos (by omega),hsy]
        refine ⟨_,readBlocks_done hz,?_,hbe⟩
        rw [hal]
        exact hbf
      · have hf : part.length = g.clusterBytes := by omega
        have hg : c1.clusterToGo = 0 := by
          show c.clusterToGo - _ = 0
          rw [hs.clusterToGo,hf,Nat.sub_self]
        obtain ⟨next,hnx,hst,hfl,hn,hsa⟩ := Stands.next hb hc (c := c1) hs.cluster hg
        have htg : next.fileToGo = c.fileToGo - g.clusterBytes := by
          rw [hfl]
          show c.fileToGo - part.length = _
          rw [hf]
        have htr : next.count = c.count := hn
        rw [hnx]
        have hps : g.clusterBytes * (next.count + 1) = g.clusterBytes * c.count + g.clusterBytes := by
          rw [htr,Nat.mul_succ]
        have hrs := ih (c := { next with count := next.count + 1 }) hc.2.2.2 ha
          ⟨hst.cluster,hst.pos,hst.clusterToGo⟩
          (by omega)
          (by
            rw [length_drop,htg]
            omega)
          (by
            show next.fileToGo ≤ fuel
            omega)
          (by
            show g.clusterBytes * (next.count + 1) + next.fileToGo ≤ MAXFILESIZE
            omega)
        dsimp only at hrs ⊢
        by_cases hr : c.fileToGo ≤ (cluster :: rest).length * g.clusterBytes
        · rw [if_pos (by omega)] at hrs ⊢
          obtain ⟨buffer,hw,ht,hk⟩ := hrs
          refine ⟨buffer,hw,?_,?_⟩
          · intro i hi
            by_cases hi' : i < g.clusterBytes
            · rw [hk _ (by omega),hsa]
              exact hbf i (by omega)
            have hth := ht (i - g.clusterBytes) (by rw [length_drop]; omega)
            have hin : g.clusterBytes * (next.count + 1) + (i - g.clusterBytes) =
              g.clusterBytes * c.count + i := by omega
            rw [hin] at hth
            rw [hth,getD_eq_getElem?_getD,getD_eq_getElem?_getD,getElem?_drop]
            congr 2
            omega
          · intro i hi
            rw [hk i (by omega),hsa]
            exact hbe i hi
        · rw [if_neg (by omega)] at hrs ⊢
          exact hrs

/-- The chain is long enough, the buffer is large enough, and a file without clusters does not lead
the reader before the image. -/
def Readable (g : Geometry) (f : Stored) : Prop :=
  f.complete g = true ∧ f.size ≤ MAXFILESIZE ∧ (f.chain = [] → 2 * g.clusterBytes ≤ g.dataStart)

theorem map_range_eq {buffer : Memory UInt8} (hl : data.length = n)
    (h : ∀ i < n,buffer i = data.getD i 0) : (List.range n).map buffer = data := by
  apply ext_getElem
  · simp [hl]
  · intro i hi hi'
    rw [getElem_map,getElem_range,h i (by omega),getD_eq_getElem?_getD,getElem?_eq_getElem hi']
    rfl

theorem getFile_spec (hb : Agrees b g) (hen : image.length < g.dataStart + 65525 * g.clusterBytes)
    (hld : f.Laid image g) (hs : g.clusterBytes ≤ 4096 ∨ f.size ≤ 4096)
    (he : f.chain = [] → f.size = 0) (hsz : d.fileSize = f.size)
    (hst : d.startingCluster = f.chain.headD 0) :
    (Readable g f → ∃ after,getFile image b d buffer = .whole after ∧
      (List.range f.size).map after = f.data) ∧
      (¬Readable g f → getFile image b d buffer = .failed) := by
  unfold getFile
  rw [hsz,hst]
  by_cases hl : MAXFILESIZE < f.size
  · rw [if_pos hl]
    exact ⟨fun hr => absurd hr.2.1 (not_le.mpr hl),fun _ => rfl⟩
  rw [if_neg hl]
  have hln := hld.length
  cases hcn : f.chain with
  | nil =>
    have hz := he hcn
    have hc : f.complete g = true := by simp [Stored.complete,hz]
    have hsk := hb.clusterZero
    have hn : f.data = [] := by
      apply eq_nil_of_length_eq_zero
      rw [hln,hz,Nat.zero_min]
    rw [headD_nil,hz]
    cases hv : fseek 64 (b.clusterStart 0) with
    | none =>
      rw [hv] at hsk
      have hbf : ¬2 * g.clusterBytes ≤ g.dataStart := of_decide_eq_false hsk.symm
      exact ⟨fun hr => absurd (hr.2.2 hcn) hbf,fun _ => rfl⟩
    | some pos =>
      rw [hv] at hsk
      have hw : 2 * g.clusterBytes ≤ g.dataStart := of_decide_eq_true hsk.symm
      refine ⟨fun _ => ⟨buffer,readBlocks_done rfl,hn.symm⟩,?_⟩
      intro hr
      exact absurd ⟨hc,not_lt.mp hl,fun _ => hw⟩ hr
  | cons cluster rest =>
    have hch := hld.chained
    have hco := hld.contents
    rw [hcn] at hch hco hln
    have hlw : 2 ≤ cluster := hch.1
    have hh : cluster < 0xfff7 := hch.2.1
    have hm : cluster ≠ 0xffff := by omega
    have hmd : cluster % 2 ^ 16 = cluster := Nat.mod_eq_of_lt (by omega)
    rw [headD_cons,hb.clusterStart hlw (by omega),hmd]
    have hrd := readBlocks_chain hb hen hm hch hco
      (c := ⟨g.clusterStart cluster,cluster,f.size,b.clusterBytes,0,buffer⟩)
      ⟨rfl,rfl,hb.clusterBytes⟩ hs
      hln le_rfl (by
        show g.clusterBytes * 0 + f.size ≤ MAXFILESIZE
        omega)
    have hc : f.complete g = true ↔ f.size ≤ (cluster :: rest).length * g.clusterBytes := by
      rw [Stored.complete,hcn,decide_eq_true_iff]
    by_cases hrc : f.size ≤ (cluster :: rest).length * g.clusterBytes
    · rw [if_pos hrc] at hrd
      obtain ⟨after,hwh,hby,_⟩ := hrd
      refine ⟨fun _ => ⟨after,hwh,?_⟩,?_⟩
      · have ha : f.data.length = f.size := by rw [hln,min_eq_left hrc]
        apply map_range_eq ha
        intro i hi
        simpa using hby i (by omega)
      · intro hr
        refine absurd ⟨hc.mpr hrc,not_lt.mp hl,?_⟩ hr
        intro hnl
        rw [hcn] at hnl
        cases hnl
    · rw [if_neg hrc] at hrd
      exact ⟨fun hr => absurd (hc.mp hr.1) hrc,fun _ => hrd⟩

end Mpss.Proofs.FatClusters
