import Mpss.Proofs.CopyLoops

namespace Mpss.Proofs.CopyExact
open Library.Bytes Library.Moves Library.Outcomes Scif.Transfer Scif.Copy WindowRun
  CopyLoops List Option

def Makes (vs : List Move) (ops : List Op) : Prop := moves ops = vs

theorem makes : Trace Makes where
  nil := rfl
  append := by
    rintro _ _ _ _ rfl rfl
    exact moves_append

variable {node : Node} {c dst src : Cursor}

theorem descriptors_moves (node : Node) (dst src : Nat)
    (hs : ∀ last,split = some last → last ≤ loopLen) (hle : loopLen ≤ remaining) :
    Returns (descriptors node split dst src loopLen remaining)
      (Makes (span (fun k => node.bus (dst + k)) (fun k => node.bus (src + k)) loopLen)) := by
  unfold descriptors
  cases split with
  | none => exact ⟨_,rfl,append_nil _⟩
  | some last =>
    simp only
    by_cases hr : remaining - loopLen = 0
    · have hl := hs last rfl
      rw [if_pos hr,if_neg (not_lt.mpr hl)]
      refine ⟨_,rfl,?_⟩
      have hsm : loopLen = (loopLen - last) + (remaining - (loopLen - last)) := by omega
      unfold Makes
      conv_rhs => rw [hsm,span_add]
      simp [moves,dmaMemcpy,Op.moves,add_assoc]
    · rw [if_neg hr]
      exact ⟨_,rfl,append_nil _⟩

theorem dma_loop (node : Node) (hsp : ∀ last,split = some last → last = unit) (hu : unit ∣ pageSize)
    (hs : Room node.bus P unit src n) (hd : Room node.bus P unit dst n) (hn : unit ∣ n) :
    Returns (dmaLoop node split n src dst n) (Copied Makes node.bus P src dst n) := by
  refine CopyLoops.dma_loop returns makes (fun h hl => h.enter hl)
    (fun h hl => h.at_.sound.off_to_dma h.at_.valid h.at_.lower hl) (fun hf => hf) (dmaLoop node split)
    (fun s d => descriptors node split d s) ?_ (fun _ _ _ _ => rfl) ?_ hu hs hd hn le_rfl
  · intro fuel _ _
    cases fuel with
    | zero | succ fuel => rfl
  · intro src dst s d len n hsf hdf _ _ hl hps hle hsl hdl
    obtain ⟨ops,ho,hm⟩ := descriptors_moves node d.addr s.addr (fun last he => Nat.le_of_dvd hps
      (hsp last he ▸ hl)) hle
    exact ⟨ops,ho,hm.trans (span_congr (fun k hk => hdf.bytes (by omega))
      (fun k hk => hsf.bytes (by omega)))⟩

/-- A range of `len` bytes of a run, from the place of a cursor in its first window on. -/
structure Range (bus : Nat → Nat) (c : Cursor) (len : Nat) : Prop where
  run : Run bus (c.window :: c.rest)
  lower : c.window.offset ≤ c.offset
  upper : c.offset < c.window.endOffset
  fits : c.offset + len ≤ limit c

theorem Range.start (h : Range bus c len) : At bus c.start :=
  ⟨h.run,h.lower,le_of_lt h.upper,h.run.1.valid_init h.lower⟩

theorem Range.on (h : Range bus c len) (hp : ∀ w ∈ c.window :: c.rest,P w) : On bus P c.start :=
    ⟨h.start,hp⟩

theorem unaligned_cpy_moves {dst src : Ptr} {count : Nat} :
    moves (scifUnalignedCpy dst src count ordered) = span dst src count := by
  unfold scifUnalignedCpy
  cases ordered with
  | false => exact append_nil _
  | true =>
    by_cases hc : count = 0
    · subst hc
      rfl
    · have hs : count = (count - 1) + 1 := by omega
      rw [if_neg hc]
      conv_rhs => rw [hs,span_add]
      rfl

theorem copy_piece (hs : At node.bus src) (hd : At node.bus dst)
    (hsl : src.offset < src.window.endOffset) (hdl : dst.offset < dst.window.endOffset)
    (hsp : InPage src m) (hdp : InPage dst m) (ordered : Bool) :
    Returns (copyPiece node src dst m ordered) (Makes (copies dst src m)) := by
  obtain ⟨p,_,hp,hpl,_⟩ := hs.sound.window_virt (hs.sound.valid_init hs.lower) hs.lower hsl
  obtain ⟨q,_,hq,hql,_⟩ := hd.sound.window_virt (hd.sound.valid_init hd.lower) hd.lower hdl
  refine ⟨scifUnalignedCpy q p m ordered,?_,?_⟩
  · unfold copyPiece
    rw [hp,hq]
    rfl
  · exact unaligned_cpy_moves.trans
      (span_congr (fun k hk => hd.leads hdl hql hdp hk) (fun k hk => hs.leads hsl hpl hsp hk))

theorem drain_moves {ordered : Bool} :
    moves (if ordered then scifDrainDma :: ops else ops) = moves ops := by
  cases ordered with
  | false | true => rfl

theorem copy_tail (hs : Room node.bus P l1CacheBytes src m)
    (hd : Room node.bus P l1CacheBytes dst m) (hm : m < l1CacheBytes) (ordered : Bool) :
    Returns (copyTail node src dst m ordered) (Makes (copies dst src m)) := by
  unfold copyTail
  by_cases h0 : m = 0
  · subst h0
    exact ⟨[],rfl,rfl⟩
  rw [if_neg h0]
  obtain ⟨hs,hsl,hso⟩ := hs
  obtain ⟨hd,hdl,hdo⟩ := hd
  obtain ⟨src',hse,hs',hsa,hst⟩ := hs.enter (by omega)
  obtain ⟨dst',hde,hd',hda,hdt⟩ := hd.enter (by omega)
  obtain ⟨tail,ht,hmv⟩ := copy_piece hs'.at_ hd'.at_ hst hdt (in_page_of_dvd hsa (hso h0) hm)
    (in_page_of_dvd hda (hdo h0) hm) ordered
  refine ⟨if ordered then scifDrainDma :: tail else tail,?_,?_⟩
  · simp only [hse,hde,ht,bind_eq_bind,bind_some]
    rfl
  · exact drain_moves.trans (hmv.trans (copies_enter hda hsa m).symm)

theorem split_line
    (he : (if ordered && tailLen = 0 then some l1CacheBytes else none) = some last) :
    last = l1CacheBytes :=
  (some.inj (ite_none_right_eq_some.mp he).2).symm

section
variable {work : CopyWork} (hs : Range node.bus work.src work.len)
  (hd : Range node.bus work.dst work.len)
include hs hd

theorem byte_aligned_copies :
    Returns (scifRmaListDmaCopyByteAligned node work) (Makes (copies work.dst work.src work.len)) := by
  have hsp : ∀ last,(if work.ordered then some 1 else none) = some last → last = 1 := by
    intro last he
    exact (some.inj (ite_none_right_eq_some.mp he).2).symm
  obtain ⟨r,hr,hc⟩ := dma_loop (P := fun _ => True) node hsp (one_dvd _)
    ⟨hs.on (fun _ _ => trivial),hs.fits,fun _ => one_dvd _⟩ ⟨hd.on (fun _ _ => trivial),hd.fits,
    fun _ => one_dvd _⟩ (one_dvd _)
  refine ⟨r.1,?_,hc.makes⟩
  unfold scifRmaListDmaCopyByteAligned
  rw [hr]
  rfl

theorem copy_head (ha : work.dst.offset % l1CacheBytes = work.src.offset % l1CacheBytes) :
    Returns (copyHead node work) (Makes (copies work.dst work.src
    (headLen work.src.offset work.len))) := by
  have hl := headLen_in_line work.src.offset work.len
  unfold copyHead
  split_ifs with h0
  · refine ⟨[],rfl,?_⟩
    rw [headLen,if_pos h0]
    rfl
  · exact copy_piece hs.start hd.start hs.upper hd.upper (in_page_of_line hl)
      (in_page_of_line (ha.symm ▸ hl)) _

theorem aligned_copies (ha : work.dst.offset % l1CacheBytes = work.src.offset % l1CacheBytes) :
    Returns (scifRmaListDmaCopyAligned node work) (Makes (copies work.dst work.src work.len)) :=
  aligned_parts (P := fun _ => True) returns makes
    (fun tailLen n src dst =>
      dmaLoop node (if work.ordered && tailLen = 0 then some l1CacheBytes else none) n src dst n)
    (fun src dst n => copyTail node src dst n work.ordered) (hs.on (fun _ _ => trivial))
      (hd.on (fun _ _ => trivial))
    hs.upper hd.upper hs.fits hd.fits ha (copy_head hs hd ha)
    (fun h h' hl _ => dma_loop node (fun _ he => split_line he) (by decide) h h' hl)
    (fun h h' hl => copy_tail h h' hl work.ordered)

theorem cpu_copies : Returns (scifRmaListCpuCopy node work)
    (Makes (copies work.dst work.src work.len)) := by
  refine cpu_loop (P := fun _ => True) returns makes (fun h hl => h.enter hl) (cpuLoop node)
    (fun c _ => windowVirt node c.window c.offset c.iter) Op.now ?_ (fun _ _ _ _ => rfl)
    (fun _ => append_nil _) ?_
    (hs.on (fun _ _ => trivial)) (hd.on (fun _ _ => trivial)) hs.upper hd.upper hs.fits hd.fits le_rfl
  · intro fuel _ _
    cases fuel with
    | zero | succ fuel => rfl
  · intro c len h hl hp
    obtain ⟨p,it,hv,hld,hit⟩ := h.at_.sound.window_virt h.at_.valid h.at_.lower hl
    exact ⟨(p,it),hv,fun k hk => h.at_.leads hl hld hp hk,hit⟩

end

/-- Every window from the place of the cursor on is the endpoint's own. -/
def Own (c : Cursor) : Prop := ∀ w ∈ c.window :: c.rest,w.type = .self

theorem local_cpu_copy (toTemp : Bool) (hc : Range bus c len) (ho : Own c) (temp : Nat) :
    Returns (scifRmaLocalCpuCopy c.start temp len toTemp) (· = bufferMoves toTemp (bytes c)
    (virt temp) len) := by
  refine local_copy (P := fun w => w.type = .self) returns (fun h hl => h.enter hl) (localLoop toTemp)
    (fun c => getLocalVa c.window c.offset) ?_ (fun _ _ _ _ => rfl) ?_ (hc.on ho) hc.upper hc.fits temp
  · intro fuel _ _
    cases fuel with
    | zero | succ fuel => rfl
  · intro c len h hl hp
    obtain ⟨p,hv,hld⟩ := h.at_.sound.local_va h.here h.at_.lower hl
    exact ⟨p,hv,fun k hk => h.at_.leads hl hld hp hk⟩

theorem temp_piece (hc : At node.bus c) (hl : c.offset < c.window.endOffset)
    (hp : InPage c m) (srcLocal : Bool) (temp : Nat) (ordered : Bool) :
    Returns (tempPiece node srcLocal c temp m ordered)
    (Makes (bufferMoves (!srcLocal) (bytes c) (virt temp) m)) := by
  obtain ⟨p,it,hio,hpl,_⟩ := hc.sound.ioremap (hc.sound.valid_init hc.lower) hc.lower hl
  have hcl : ∀ k < m,p k = bytes c k := fun k hk => hc.leads hl hpl hp hk
  unfold tempPiece
  rw [hio]
  refine ⟨_,rfl,?_⟩
  cases srcLocal with
  | true => exact (unaligned_cpy_moves).trans (span_congr hcl (fun k _ => rfl))
  | false => exact (unaligned_cpy_moves).trans (span_congr (fun k _ => rfl) hcl)

/-- The bus addresses of the kernel memory from `lo` to `hi` lead back to it. -/
structure Mapped (node : Node) (lo hi : Nat) : Prop where
  single : ∀ a k,lo ≤ a → a + k < hi → node.bus (node.mapSingle a + k) = a + k
  phys : ∀ a k,lo ≤ a → a + k < hi → node.bus (node.virtToPhys a + k) = a + k

theorem temp_descriptors (hf : Found node.bus c.window c.offset w)
    (srcLocal : Bool) (split : Option Nat) (temp : Nat) (hs : ∀ last,split = some last →
    last ≤ loopLen)
    (hle : loopLen ≤ remaining) (hw : loopLen ≤ w.nrBytes)
    (ht : ∀ k < loopLen,node.bus (tempDma + k) = temp + k) :
    Returns (tempDescriptors node srcLocal split w.addr tempDma loopLen remaining)
      (Makes (bufferMoves (!srcLocal) (bytes c) (virt temp) loopLen)) := by
  have hc : ∀ k < loopLen,node.bus (w.addr + k) = bytes c k := fun k hk => hf.bytes (by omega)
  cases srcLocal with
  | true =>
    obtain ⟨ops,ho,hm⟩ := descriptors_moves node w.addr tempDma hs hle
    exact ⟨ops,ho,hm.trans (span_congr hc ht)⟩
  | false => exact ⟨_,rfl,(append_nil _).trans (span_congr ht hc)⟩

/-- The memory from `temp` on, inside `lo` to `hi`, and its bus address. -/
def Known (node : Node) (lo hi temp phys n : Nat) : Prop :=
  lo ≤ temp ∧ temp + n ≤ hi ∧ ∀ k < n,node.bus (phys + k) = temp + k

theorem Known.skip (h : Known node lo hi temp phys n) (hl : len + rest ≤ n) :
    Known node lo hi (temp + len) (phys + len) rest := by
  obtain ⟨hlo,hhi,hc⟩ := h
  refine ⟨by omega,by omega,?_⟩
  intro k hk
  rw [add_assoc,hc (len + k) (by omega),add_assoc]

theorem temp_loop (srcLocal ordered : Bool) (hm : Mapped node lo hi)
    (hc : Room node.bus P l1CacheBytes c n) (hl : l1CacheBytes ∣ n)
    (hk : Known node lo hi temp phys n) (tailLen : Nat) :
    Returns (tempLoop node srcLocal (if ordered && tailLen = 0 then some l1CacheBytes
    else none) n c temp phys n)
      (Passed Makes node.bus P (!srcLocal) tailLen c temp n) := by
  generalize hs : (if ordered && tailLen = 0 then some l1CacheBytes else none) = split
  refine CopyLoops.temp_loop returns makes (fun h hl => h.enter hl)
    (fun h hl => h.at_.sound.off_to_dma (h.at_.sound.valid_init h.at_.lower) h.at_.lower hl)
    (fun hf => hf)
    (tempLoop node srcLocal split)
    (fun w temp phys len n => tempDescriptors node srcLocal (if len = l1CacheBytes then none
      else split) w.addr (if node.mgmt then phys else node.virtToPhys temp) len n)
    (fun len n => if srcLocal && (if len = l1CacheBytes then none else split).isSome && n - len =
      0 then l1CacheBytes
      else len)
    (Known node lo hi) ?_ (fun _ _ _ _ _ => rfl) ?_ ?_ (fun _ hl hk => hk.skip (by omega))
      (by decide) hc hl le_rfl hk
  · intro fuel _ _ _
    cases fuel with
    | zero | succ fuel => rfl
  · rintro c w temp phys len n hf _ hl hp hle hw ⟨hlo,hhi,hb⟩
    refine temp_descriptors hf srcLocal _ temp ?_ hle hw ?_
    · intro last he
      obtain ⟨_,he⟩ := ite_none_left_eq_some.mp he
      rw [← hs] at he
      exact split_line he ▸ Nat.le_of_dvd hp hl
    · intro k hk
      split
      · exact hb k (by omega)
      · exact hm.phys temp k hlo (by omega)
  · intro len n h
    rcases h with ht | hr
    · have hn : split = none := by
        rw [← hs,decide_eq_false ht,Bool.and_false]
        rfl
      rw [hn,ite_self,isSome_none,Bool.and_false]
      rfl
    · rw [decide_eq_false hr,Bool.and_false]
      rfl

theorem temp_head (hc : Range node.bus c len) (srcLocal : Bool) (temp : Nat) (ordered : Bool) :
    Returns (tempHead node srcLocal c.start temp len ordered)
      (Makes (bufferMoves (!srcLocal) (bytes c) (virt temp) (headLen c.offset len))) := by
  unfold tempHead
  by_cases h0 : c.offset % l1CacheBytes = 0
  · have h0' : c.start.offset % l1CacheBytes = 0 := h0
    rw [if_pos h0',headLen,if_pos h0]
    exact ⟨[],rfl,(buffer_moves_zero _ _ _).symm⟩
  · have h0' : ¬ c.start.offset % l1CacheBytes = 0 := h0
    rw [if_neg h0']
    exact temp_piece hc.start hc.upper (in_page_of_line (headLen_in_line c.offset len)) srcLocal temp _

theorem temp_tail (hc : Room node.bus P l1CacheBytes c m) (hm : m < l1CacheBytes) (srcLocal : Bool)
    (temp : Nat) (ordered : Bool) :
    Returns (tempTail node srcLocal c temp m ordered)
    (Makes (bufferMoves (!srcLocal) (bytes c) (virt temp) m)) := by
  unfold tempTail
  by_cases h0 : m = 0
  · subst h0
    exact ⟨[],rfl,(buffer_moves_zero _ _ _).symm⟩
  rw [if_neg h0]
  have hl := hc.fits
  obtain ⟨d,hd,hd1,hda,hdl⟩ := hc.on.enter (by omega)
  obtain ⟨tail,ht,hmv⟩ := temp_piece hd1.at_ hdl (in_page_of_dvd hda (hc.whole h0) hm)
    srcLocal temp ordered
  refine ⟨if ordered then scifDrainDma :: tail else tail,?_,?_⟩
  · simp only [hd,ht,bind_eq_bind,bind_some]
    rfl
  · exact drain_moves.trans (hmv.trans (buffer_moves_enter _ hda _ m))

theorem unaligned_copies (work : CopyWork) (c : Cursor) (srcLocal : Bool)
    (hw : (if srcLocal then work.dst.start else work.src.start) = c.start)
    (hc : Range node.bus c work.len)
    (hm : Mapped node lo hi) (hlo : lo ≤ temp) (hhi : temp + work.len ≤ hi) :
    Returns (scifRmaListDmaCopyUnaligned node work temp (node.mapSingle temp) srcLocal)
      (Makes (bufferMoves (!srcLocal) (bytes c) (virt temp) work.len)) := by
  have hk : Known node lo hi temp (node.mapSingle temp) work.len :=
    ⟨hlo,hhi,fun k hk => hm.single temp k hlo (by omega)⟩
  unfold scifRmaListDmaCopyUnaligned
  simp only [hw]
  refine unaligned_parts (P := fun _ => True) returns makes
    (fun tailLen n c temp phys => tempLoop node srcLocal
      (if work.ordered && tailLen = 0 then some l1CacheBytes else none) n c temp phys n)
    (fun c temp n => tempTail node srcLocal c temp n work.ordered) (Known node lo hi)
      (hc.on (fun _ _ => trivial))
    hc.upper hc.fits
    (temp_head hc srcLocal temp work.ordered) ?_
    (fun h hl hk => temp_loop srcLocal work.ordered hm h hl hk)
    (fun h hl temp => temp_tail h hl srcLocal temp work.ordered) (fun h => ⟨_,rfl,h⟩)
  rintro n rfl
  have := headLen_le c.start.offset work.len
  exact hk.skip (by omega)

def InBuffer (b : Buffer) (a : Nat) : Prop := b.addr ≤ a ∧ a < b.addr + b.size

def Clear (b : Buffer) (c : Cursor) : Prop :=
  ∀ off,c.window.offset ≤ off → off < limit c → ¬ InBuffer b (cellAt (c.window :: c.rest) off)

/-- Every window from the place of the cursor on is the peer's. -/
def Away (c : Cursor) : Prop := ∀ w ∈ c.window :: c.rest,w.type = .peer

/-- What the callers see to and rely on: ranges inside runs of windows, one the endpoint's and the
other the peer's; different memory for the source and for each byte of the destination; a bounce
buffer that no window has a byte of. -/
structure Setup (node : Node) (b : Buffer) (work : CopyWork) : Prop where
  src : Range node.bus work.src work.len
  dst : Range node.bus work.dst work.len
  sides : Own work.src ∧ Away work.dst ∨ Away work.src ∧ Own work.dst
  apart : ∀ i < work.len,∀ j < work.len,bytes work.dst i ≠ bytes work.src j
  distinct : ∀ i < work.len,∀ j < work.len,bytes work.dst i = bytes work.dst j → i = j
  short : scifUnaligned work.src.offset work.dst.offset = true → work.len ≤ scifMaxUnalignedBufSize
  size : bufferLen work.len ≤ b.size
  mapped : Mapped node b.addr (b.addr + b.size)
  src_clear : Clear b work.src
  dst_clear : Clear b work.dst

/-- The destination range has got the bytes of the source range; besides it only the buffer
may have changed. -/
structure Exact (b : Buffer) (work : CopyWork) (m m' : Memory β) : Prop where
  copied : ∀ i < work.len,m' (bytes work.dst i) = m (bytes work.src i)
  frame : ∀ a,(∀ i < work.len,a ≠ bytes work.dst i) → ¬ InBuffer b a → m' a = m a

variable {node : Node} {b : Buffer} {work : CopyWork}

/-- The copy is started without an error and, once it is complete, exact. -/
def CopiesExactly (b : Buffer) (work : CopyWork) (m : Memory β) (started : Option (List Op)) : Prop :=
  ∃ ops,started = some ops ∧ ∀ m',Completes ops m m' → Exact b work m m'

theorem Setup.direct (h : Setup node b work) (m : Memory β)
    (he : ∃ ops,started = some ops ∧ moves ops = copies work.dst work.src work.len) :
    CopiesExactly b work m started := by
  obtain ⟨ops,ho,hm⟩ := he
  refine ⟨ops,ho,?_⟩
  intro m' hc
  obtain ⟨hcp,hf⟩ := hc.span hm h.distinct h.apart
  exact ⟨hcp,fun a ha _ => hf a ha⟩

theorem Clear.bytes (h : Clear b c) (hc : Range bus c len) (hk : k < len) :
    ¬ InBuffer b (bytes c k) := by
  have hl := hc.lower
  have hf := hc.fits
  exact h (c.offset + k) (by omega) (by omega)

theorem temp_fits_out (hl : len ≤ scifMaxUnalignedBufSize) :
    b.addr ≤ tempStart b len + off % l1CacheBytes ∧
      tempStart b len + off % l1CacheBytes + len ≤ b.addr + bufferLen len := by
  unfold tempStart bufferLen cacheAlign scifKmemUnalignedBufSize l1CacheBytes at *
  split
  all_goals omega

theorem temp_fits_in (hl : len ≤ scifMaxUnalignedBufSize) (hb : bufferLen len ≤ b.size)
    (off : Nat) : b.addr ≤ tempStart b len ∧
      tempStart b len + cacheAlign (len + off % l1CacheBytes) ≤ b.addr + b.size := by
  obtain ⟨n,hn⟩ := b.lines
  unfold tempStart bufferLen cacheAlign scifKmemUnalignedBufSize l1CacheBytes at *
  split_ifs at hb with hlt
  · rw [if_pos hlt]
    omega
  · rw [if_neg hlt]
    omega

theorem virt_injective (a : Nat) : ∀ i < n,∀ j < n,virt a i = virt a j → i = j :=
    fun _ _ _ _ he => add_left_cancel he

def Cursor.lines (c : Cursor) : Cursor := { c with offset := c.offset - c.offset % l1CacheBytes }

theorem Range.lines (h : Range bus c len) :
    Range bus (Cursor.lines c) (cacheAlign (len + c.offset % l1CacheBytes)) := by
  have hal := h.run.1.aligned
  have hl := h.lower
  have hup := h.upper
  obtain ⟨he,hm⟩ := h.run.ends
  have hf : c.offset + len ≤ runEnd c.window c.rest := h.fits
  refine ⟨h.run,?_,(Nat.sub_le _ _).trans_lt hup,?_⟩
  · show c.window.offset ≤ c.offset - c.offset % l1CacheBytes
    unfold pageSize l1CacheBytes at *
    omega
  · show c.offset - c.offset % l1CacheBytes + cacheAlign (len + c.offset % l1CacheBytes) ≤
      runEnd c.window c.rest
    unfold cacheAlign pageSize l1CacheBytes at *
    omega

theorem lines_bytes (c : Cursor) (i : Nat) :
    bytes (Cursor.lines c) (c.offset % l1CacheBytes + i) = bytes c i := by
  unfold bytes
  congr 1
  show c.offset - c.offset % l1CacheBytes + (c.offset % l1CacheBytes + i) = c.offset + i
  have := Nat.mod_le c.offset l1CacheBytes
  omega

section
variable (hs : Range node.bus work.src work.len) (hd : Range node.bus work.dst work.len)
include hs hd

theorem bounce_out (ho : Own work.src) (hmp : Mapped node lo hi)
    (ht : tempStart b work.len + work.dst.offset % l1CacheBytes = temp) (hlo : lo ≤ temp)
    (hhi : temp + work.len ≤ hi) :
    ∃ ops,copyThroughBuffer node b work =
        some (.now (bufferMoves true (bytes work.src) (virt temp) work.len) :: (ops ++ [.after []])) ∧
      moves (ops ++ [.after []]) = span (bytes work.dst) (virt temp) work.len := by
  obtain ⟨_,hf,rfl⟩ := local_cpu_copy true hs ho temp
  obtain ⟨ops,hop,hm⟩ := unaligned_copies work work.dst true rfl hd hmp hlo hhi
  refine ⟨ops,?_,?_⟩
  · unfold copyThroughBuffer
    rw [if_pos (ho work.src.window mem_cons_self)]
    simp only [ht,hf,hop,bind_eq_bind,bind_some]
    rfl
  · rw [moves_append,hm]
    exact append_nil _

/-- A copy from the peer: its cache lines are copied into the buffer, and the bytes of the range
from there on. -/
theorem bounce_into (how : Own work.dst) (hp : work.src.window.type ≠ .self)
    (hmp : Mapped node lo hi) (hlo : lo ≤ tempStart b work.len)
    (hhi : tempStart b work.len + cacheAlign (work.len + work.src.offset % l1CacheBytes) ≤ hi) :
    ∃ ops,copyThroughBuffer node b work =
        some (ops ++ [.after (bufferMoves false (bytes work.dst)
          (virt (tempStart b work.len + work.src.offset % l1CacheBytes)) work.len)]) ∧
      moves ops = bufferMoves true (bytes (Cursor.lines work.src)) (virt (tempStart b work.len))
        (cacheAlign (work.len + work.src.offset % l1CacheBytes)) := by
  obtain ⟨ops,ho,hm⟩ := unaligned_copies
    { work with
      src := Cursor.lines work.src,len := cacheAlign (work.len + work.src.offset % l1CacheBytes) }
    (Cursor.lines work.src) false rfl hs.lines hmp hlo hhi
  obtain ⟨_,he,rfl⟩ := local_cpu_copy false hd how
    (tempStart b work.len + work.src.offset % l1CacheBytes)
  refine ⟨ops,?_,hm⟩
  unfold Cursor.lines at ho
  unfold copyThroughBuffer
  rw [if_neg hp]
  simp only [he,ho,bind_eq_bind,bind_some]
  rfl

end

section
variable {work : CopyWork} (h : Setup node b work) (hl : work.len ≤ scifMaxUnalignedBufSize)
include h hl

theorem Setup.out (hs : work.src.window.type = .self) :
    CopiesExactly b work m (copyThroughBuffer node b work) := by
  have how : Own work.src := by
    rcases h.sides with ⟨ho,_⟩ | ⟨ha,_⟩
    · exact ho
    · have := ha work.src.window mem_cons_self
      rw [hs] at this
      cases this
  obtain ⟨hlo,hft⟩ := temp_fits_out hl
  have hhi := Nat.le_trans hft (Nat.add_le_add_left h.size _)
  generalize ht : tempStart b work.len + work.dst.offset % l1CacheBytes = temp at hlo hft hhi
  have hin : ∀ i < work.len,InBuffer b (virt temp i) := by
    intro i hi
    unfold InBuffer virt
    omega
  obtain ⟨ops,hop,hls⟩ := bounce_out h.src h.dst how h.mapped ht hlo hhi
  refine ⟨_,hop,?_⟩
  intro m' hc
  obtain ⟨hcp,hf⟩ := completes_filled hc hls (virt_injective temp) h.distinct
    (fun i hi j hj he => h.src_clear.bytes h.src hj (he ▸ hin i hi))
    (fun i hi j hj he => h.dst_clear.bytes h.dst hi (he ▸ hin j hj))
  exact ⟨hcp,fun a ha hb => hf a ha (fun i hi he => hb (he ▸ hin i hi))⟩

theorem Setup.into (hs : work.src.window.type ≠ .self) (m : Memory β) :
    CopiesExactly b work m (copyThroughBuffer node b work) := by
  have how : Own work.dst := by
    rcases h.sides with ⟨ho,_⟩ | ⟨_,ho⟩
    · exact absurd (ho work.src.window mem_cons_self) hs
    · exact ho
  obtain ⟨hlo,hhi⟩ := temp_fits_in hl h.size work.src.offset
  obtain ⟨ops,hop,hm⟩ := bounce_into h.src h.dst how hs h.mapped hlo hhi
  have hln := h.src.lines
  generalize tempStart b work.len = temp at hlo hhi hop hm
  have hby := lines_bytes work.src
  generalize work.src.offset % l1CacheBytes = pad at *
  have hle : pad + work.len ≤ cacheAlign (work.len + pad) := by
    unfold cacheAlign l1CacheBytes
    omega
  have hin : ∀ i < cacheAlign (work.len + pad),InBuffer b (virt temp i) := by
    intro i hi
    unfold InBuffer virt
    omega
  have hcl : Clear b (Cursor.lines work.src) := h.src_clear
  refine ⟨_,hop,?_⟩
  intro m' hc
  have hbc : virt (temp + pad) = fun i => virt temp (pad + i) := (virt_add temp pad).symm
  rw [hbc] at hc
  obtain ⟨hcp,hf⟩ := completes_emptied hc hm hle (virt_injective temp) h.distinct
    (fun i hi j hj he => hcl.bytes hln hj (he ▸ hin i hi))
    (fun i hi j hj he => h.dst_clear.bytes h.dst hi (he ▸ hin j hj))
  refine ⟨?_,fun a ha hb => hf a ha (fun i hi he => hb (he ▸ hin i hi))⟩
  intro i hi
  rw [hcp i hi,hby]

end

theorem Setup.wrapper (h : Setup node b work) :
    CopiesExactly b work m (scifRmaListDmaCopyWrapper node byteAligned b work) := by
  unfold scifRmaListDmaCopyWrapper
  by_cases hb : byteAligned = true
  · rw [if_pos hb]
    exact h.direct m (byte_aligned_copies h.src h.dst)
  by_cases ha : work.dst.offset % l1CacheBytes = work.src.offset % l1CacheBytes
  · rw [if_neg hb,if_pos ha]
    exact h.direct m (aligned_copies h.src h.dst ha)
  rw [if_neg hb,if_neg ha]
  by_cases hlp : work.loopback = true
  · rw [if_pos hlp]
    exact h.direct m (cpu_copies h.src h.dst)
  rw [if_neg hlp]
  have hl : work.len ≤ scifMaxUnalignedBufSize := by
    refine h.short (decide_eq_true ?_)
    intro he
    exact ha (by exact_mod_cast he.symm)
  by_cases hs : work.src.window.type = .self
  · exact h.out hl hs
  · exact h.into hl hs m

/-- Whatever the engine, the copy is started, and exact when every descriptor has completed. -/
theorem rma_copy_exact (h : Setup node b work) (byteAligned : Bool) (flags : Nat) (m : Memory UInt8) :
    ∃ ops,rmaCopy node byteAligned b flags work = some ops ∧ (∃ m',Completes ops m m') ∧
      ∀ m',Completes ops m m' → Exact b work m m' := by
  have hc : CopiesExactly b work m (rmaCopy node byteAligned b flags work) := by
    unfold rmaCopy
    generalize (if work.loopback && node.mgmt then flags ||| scifRmaUsecpu else flags) = flags
    by_cases hf : flags &&& scifRmaUsecpu ≠ 0
    · simp only [if_pos hf]
      exact h.direct m (cpu_copies h.src h.dst)
    · simp only [if_neg hf]
      exact h.wrapper
  obtain ⟨ops,ho,he⟩ := hc
  exact ⟨ops,ho,completes_exists m,he⟩

def flatNode : Node := { bus := id,mapSingle := id,virtToPhys := id,mgmt := true }

def pageWindow (type : WindowType) (offset page : Nat) : Window :=
  { type := type,offset := offset,nrPages := 1,pages := [page],chunks := [⟨page,1⟩] }

theorem page_sound (ho : offset % pageSize = 0) (hp : page % pageSize = 0) :
    Sound flatNode.bus (pageWindow type offset page) := by
  refine ⟨ho,rfl,Nat.zero_lt_one,hp,le_rfl,?_,rfl⟩
  intro i hi b hb
  obtain rfl : i = 0 := Nat.lt_one_iff.mp hi
  simp [flatNode,pageWindow]

theorem page_cell_lt (type : WindowType) (offset page off : Nat) :
    cell (pageWindow type offset page) off < page + pageSize := by
  have hm : off % pageSize < pageSize := Nat.mod_lt _ (by decide)
  unfold cell cellIn pageWindow
  cases (off - offset) / pageSize with
  | zero => exact Nat.add_lt_add_left hm page
  | succ i => exact Nat.lt_of_lt_of_le (by simpa using hm) (Nat.le_add_left _ _)

theorem cellAt_lt (hn : 0 < n) (h : ∀ w ∈ ws,cell w off < n) : cellAt ws off < n := by
  induction ws with
  | nil => exact hn
  | cons w ws ih =>
    unfold cellAt
    split
    · exact h w mem_cons_self
    · exact ih (forall_mem_cons.mp h).2

theorem page_clear {iter : Iter}
    (h : page + pageSize ≤ b.addr) : Clear b ⟨pageWindow type offset page,[],o,iter⟩ := by
  intro off _ _ hin
  have hp : 0 < pageSize := by decide
  refine absurd hin.1 (not_le.mpr (cellAt_lt (by omega) ?_))
  intro w hw
  rw [mem_singleton.mp hw]
  exact (page_cell_lt _ _ _ _).trans_le h

def acrossWindows : CopyWork :=
  { src := ⟨pageWindow .self 0 0x5000,[pageWindow .self 4096 0x3000],4090,⟨0,0⟩⟩
    dst := ⟨pageWindow .peer 0 0x8000,[],70,⟨0,0⟩⟩
    len := 10,loopback := false,ordered := true }

def bounceBuffer : Buffer := ⟨0x9008,192,⟨3,rfl⟩⟩

theorem across_windows_setup : Setup flatNode bounceBuffer acrossWindows where
  src := ⟨⟨page_sound rfl rfl,Nat.zero_lt_one,by simp [pageWindow,Window.endOffset,pageSize,acrossWindows],
    page_sound rfl rfl,Nat.zero_lt_one,nofun,trivial⟩,by decide,by decide,by decide⟩
  dst := ⟨⟨page_sound rfl rfl,Nat.zero_lt_one,nofun,trivial⟩,by decide,by decide,by decide⟩
  sides := Or.inl ⟨by simp [Own,acrossWindows,pageWindow],by simp [Away,acrossWindows,pageWindow]⟩
  apart := by decide
  distinct := by decide
  short := fun _ => by decide
  size := by decide
  mapped := ⟨fun _ _ _ _ => rfl,fun _ _ _ _ => rfl⟩
  src_clear := by
    intro off _ _ hin
    refine absurd hin.1 (not_le.mpr (cellAt_lt (by decide) ?_))
    intro w hw
    rcases mem_pair.mp hw with rfl | rfl
    all_goals exact (page_cell_lt _ _ _ _).trans_le (by decide)
  dst_clear := page_clear (by decide)

def numbered : Memory UInt8 := fun a => UInt8.ofNat a

theorem across_windows_exact :
    ∃ ops,rmaCopy flatNode false bounceBuffer 0 acrossWindows = some ops ∧
      ∀ m',Completes ops numbered m' → m' 0x804C = numbered 0x3000 := by
  have hs : bytes acrossWindows.src 6 = 0x3000 := by decide
  have hd : bytes acrossWindows.dst 6 = 0x804C := by decide
  obtain ⟨ops,ho,_,hx⟩ := rma_copy_exact across_windows_setup false 0 numbered
  refine ⟨ops,ho,?_⟩
  intro m' hc
  have hcp := (hx m' hc).copied 6 (by decide)
  rwa [hs,hd] at hcp

end Mpss.Proofs.CopyExact
