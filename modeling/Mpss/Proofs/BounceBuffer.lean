import Mpss.Proofs.CopyExact

namespace Mpss.Proofs.BounceBuffer
open Library.Moves Scif.Copy Scif.Transfer WindowRun CopyExact List

/-- A transfer through the bounce buffer; `b` is the kernel memory from the allocation on, with two
cache lines behind what was asked for. -/
structure Bounced (node : Node) (b : Buffer) (work : CopyWork) : Prop where
  src : Range node.bus work.src work.len
  dst : Range node.bus work.dst work.len
  sides : Own work.src ∧ Away work.dst ∨ Away work.src ∧ Own work.dst
  short : work.len ≤ scifMaxUnalignedBufSize
  size : bufferLen work.len + 2 * l1CacheBytes ≤ b.size
  mapped : Mapped node b.addr (b.addr + b.size)
  src_clear : Clear b work.src
  dst_clear : Clear b work.dst

/-- A byte is copied to or from the kernel memory before `stop`. -/
def Within (b : Buffer) (stop : Nat) (v : Move) : Prop := ∃ a ∈ [v.dst,v.src],b.addr ≤ a ∧ a < stop

/-- The copy starts, and every byte goes from a window to the bytes that were allocated or back. -/
def Contained (node : Node) (b : Buffer) (work : CopyWork) : Prop :=
  ∃ ops,copyThroughBuffer node b work = some ops ∧ ∀ v ∈ moves ops,Within b
    (b.addr + bufferLen work.len) v

theorem within_iff (ha : ¬ InBuffer b a) (hc : b.addr ≤ c) (hs : stop ≤ b.addr + b.size) :
    (Within b stop ⟨a,c⟩ ↔ c < stop) ∧ (Within b stop ⟨c,a⟩ ↔ c < stop) := by
  have hn : ¬ (b.addr ≤ a ∧ a < stop) := fun h => ha ⟨h.1,h.2.trans_le hs⟩
  simp [Within,hn,hc]

theorem span_within (hw : ∀ k < n,¬ InBuffer b (w k)) (hlo : b.addr ≤ temp)
    (hs : stop ≤ b.addr + b.size)
    (toTemp : Bool) : (∀ v ∈ bufferMoves toTemp w (virt temp) n,Within b stop v) ↔
    ∀ k < n,temp + k < stop := by
  have hm := fun k hk => within_iff (hw k hk) (hlo.trans (Nat.le_add_right temp k)) hs
  cases toTemp with
  | true => exact forall_mem_span.trans (forall₂_congr fun k hk => (hm k hk).2)
  | false => exact forall_mem_span.trans (forall₂_congr fun k hk => (hm k hk).1)

theorem Bounced.out (h : Bounced node b work) (ho : Own work.src) : Contained node b work := by
  obtain ⟨hlo,hft⟩ := temp_fits_out h.short
  have hs := h.size
  obtain ⟨ops,hop,hm⟩ := bounce_out h.src h.dst ho h.mapped rfl hlo (by omega)
  have hk : ∀ k < work.len,tempStart b work.len + work.dst.offset % l1CacheBytes + k <
      b.addr + bufferLen work.len := by
    intro k hk
    omega
  refine ⟨_,hop,?_⟩
  intro v hv
  rcases mem_moves_cons.mp hv with hf | hl
  · exact (span_within (fun k hk => h.src_clear.bytes h.src hk) hlo (by omega) true).mpr hk v hf
  · rw [hm] at hl
    exact (span_within (fun k hk => h.dst_clear.bytes h.dst hk) hlo (by omega) false).mpr hk v hl

theorem all_before : (∀ k < n,temp + k < stop) ↔ n = 0 ∨ temp + n ≤ stop := by
  constructor
  · intro h
    by_cases hn : n = 0
    · exact .inl hn
    · have := h (n - 1) (by omega)
      omega
  · intro h k hk
    omega

theorem lines_before (b : Buffer) (hl : len ≤ scifMaxUnalignedBufSize) (off : Nat) :
    (∀ k < cacheAlign (len + off % l1CacheBytes),tempStart b len + k < b.addr + bufferLen len) ↔
      len = scifMaxUnalignedBufSize ∨
        cacheAlign b.addr - b.addr + cacheAlign (len + off % l1CacheBytes) ≤ len +
        2 * l1CacheBytes := by
  rw [all_before]
  unfold tempStart bufferLen cacheAlign scifKmemUnalignedBufSize l1CacheBytes at *
  split
  all_goals omega

theorem Bounced.into (h : Bounced node b work) (hp : Away work.src) (how : Own work.dst) :
    Contained node b work ↔ work.len = scifMaxUnalignedBufSize ∨
      cacheAlign b.addr - b.addr + cacheAlign (work.len + work.src.offset % l1CacheBytes) ≤
        work.len + 2 * l1CacheBytes := by
  have hs := Nat.le_of_add_right_le h.size
  have hle : work.src.offset % l1CacheBytes + work.len ≤
      cacheAlign (work.len + work.src.offset % l1CacheBytes) := by
    unfold cacheAlign l1CacheBytes
    omega
  obtain ⟨hlo,hhi⟩ := temp_fits_in h.short hs work.src.offset
  have hsl : work.src.window.type ≠ .self := by
    rw [hp work.src.window mem_cons_self]
    exact WindowType.noConfusion
  obtain ⟨ops,ho,hm⟩ := bounce_into h.src h.dst how hsl h.mapped hlo hhi
  have hcl : Clear b (Cursor.lines work.src) := h.src_clear
  have hst := Nat.add_le_add_left hs b.addr
  have hln := span_within (fun k hk => hcl.bytes h.src.lines hk) hlo hst true
  rw [← lines_before b h.short,← hln]
  constructor
  · rintro ⟨ops',he,hc⟩ v hv
    cases Option.some.inj (he.symm.trans ho)
    apply hc v
    rw [moves_append,hm]
    exact mem_append_left _ hv
  · intro hc
    refine ⟨_,ho,?_⟩
    intro v hv
    rw [moves_append,hm] at hv
    rcases mem_append.mp hv with hl | hl
    · exact hc v hl
    rcases mem_moves_cons.mp hl with hb | hb
    · refine (span_within (fun k hk => h.dst_clear.bytes h.dst hk) ?_ hst false).mpr ?_ v hb
      · omega
      · intro k hk
        have := hln.mp hc (work.src.offset % l1CacheBytes + k) (by omega)
        omega
    · cases hb

/-- A copy from the peer stays inside the buffer if the bytes up to its first cache line and the
padding are not more than the two lines that are added. -/
theorem bounce_buffer_iff (h : Bounced node b work) :
    Contained node b work ↔ work.src.window.type = .self ∨ work.len = scifMaxUnalignedBufSize ∨
      cacheAlign b.addr - b.addr + cacheAlign (work.len + work.src.offset % l1CacheBytes) ≤
        work.len + 2 * l1CacheBytes := by
  rcases h.sides with ⟨ho,_⟩ | ⟨ha,ho⟩
  · exact iff_of_true (h.out ho) (.inl (ho work.src.window mem_cons_self))
  · rw [h.into ha ho,ha work.src.window mem_cons_self]
    simp

/-- Two bytes of the peer in two cache lines. -/
def fromPeer : CopyWork :=
  { src := ⟨pageWindow .peer 0 0x8000,[],63,⟨0,0⟩⟩
    dst := ⟨pageWindow .self 0 0x3000,[],0,⟨0,0⟩⟩
    len := 2,loopback := false,ordered := false }

def kernelFrom (addr : Nat) : Buffer := ⟨addr,320,⟨5,rfl⟩⟩

theorem from_peer_bounced (h : 0x9000 ≤ addr) : Bounced flatNode (kernelFrom addr) fromPeer where
  src := ⟨⟨page_sound rfl rfl,Nat.zero_lt_one,nofun,trivial⟩,by decide,by decide,by decide⟩
  dst := ⟨⟨page_sound rfl rfl,Nat.zero_lt_one,nofun,trivial⟩,by decide,by decide,by decide⟩
  sides := Or.inr ⟨by simp [Away,fromPeer,pageWindow],by simp [Own,fromPeer,pageWindow]⟩
  short := by decide
  size := (by decide : bufferLen fromPeer.len + 2 * l1CacheBytes ≤ 320)
  mapped := ⟨fun _ _ _ _ => rfl,fun _ _ _ _ => rfl⟩
  src_clear := page_clear h
  dst_clear := page_clear (Nat.le_trans (by decide) h)

theorem line_buffer_contains : Contained flatNode (kernelFrom 0x9000) fromPeer :=
  (bounce_buffer_iff (from_peer_bounced (by decide))).mpr (by decide)

/-- Eight bytes behind a cache line it is not: 56 bytes are skipped, and two lines copied. -/
theorem shifted_buffer_overrun : ¬ Contained flatNode (kernelFrom 0x9008) fromPeer := by
  have h := from_peer_bounced (by decide : 0x9000 ≤ 0x9008)
  rcases h.sides with ⟨ho,_⟩ | ⟨ha,ho⟩
  · cases ho _ mem_cons_self
  · rw [h.into ha ho]
    decide

end Mpss.Proofs.BounceBuffer
