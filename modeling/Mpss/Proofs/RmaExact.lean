import Mpss.Proofs.RmaMoves

namespace Mpss.Proofs.RmaExact
open Library.Bytes Library.Outcomes Library.Moves Scif.Transfer WindowRun Micscif.RmaDma List Option
open CopyLoops RmaPlaces RmaMoves
open Scif.Copy (pageSize WindowType Window virt DmaAddr Cursor CopyWork Buffer bufferMoves cacheAlign)
open CopyExact (Own Away InBuffer Clear virt_injective)

/-- What the callers see to and rely on: ranges inside runs of windows, one the endpoint's own and
the other the peer's; different memory for the source and for each byte of the destination; bounce
buffers that no window has a byte of, those from the cache at the start of a line. -/
structure Setup (env : Env) (work : CopyWork) : Prop where
  src : Given env work.loopback work.src work.len
  dst : Given env work.loopback work.dst work.len
  sides : Own work.src ∧ Away work.dst ∨ Away work.src ∧ Own work.dst
  apart : ∀ i < work.len,∀ j < work.len,bytes work.dst i ≠ bytes work.src j
  distinct : ∀ i < work.len,∀ j < work.len,bytes work.dst i = bytes work.dst j → i = j
  kmalloc : ∀ n b,env.kmalloc n = some b → n ≤ b.size
  cache : ∀ b,env.kmemCacheAlloc = some b → kmemUnalignedBufSize ≤ b.size ∧ l1CacheBytes ∣ b.addr
  mapped : ∀ b,tempBuffer env work.len = some b → Mapped env b.addr (b.addr + b.size)
  src_clear : ∀ b,tempBuffer env work.len = some b → Clear b work.src
  dst_clear : ∀ b,tempBuffer env work.len = some b → Clear b work.dst

/-- The destination range has got the bytes of the source range; besides it only the buffer may
have changed. -/
structure Exact (env : Env) (work : CopyWork) (m m' : Memory UInt8) : Prop where
  copied : ∀ i < work.len,m' (bytes work.dst i) = m (bytes work.src i)
  frame : ∀ a,(∀ i < work.len,a ≠ bytes work.dst i) →
    (∀ b,tempBuffer env work.len = some b → ¬ InBuffer b a) → m' a = m a

/-- When everything that was started has completed the copy is exact, and the engine copied whole
cache lines only. -/
structure CopiesExactly (env : Env) (work : CopyWork) (acts : List Act) : Prop where
  exact : ∀ m m',Completes (ops env acts) m m' → Exact env work m m'
  lines : ∀ a ∈ acts,Act.Aligned a

/-- When the engine is not to be asked: on the host for a copy to itself, and for more bytes than
the buffer holds. -/
def MayBug (env : Env) (work : CopyWork) : Prop :=
  ¬ Reliable env ∨ env.mic = false ∧ work.loopback = true ∨
    scifUnaligned work.src.offset work.dst.offset = true ∧ scifMaxUnalignedBufSize < work.len

section
variable (h : Setup env work)
include h

theorem Setup.direct (hm : Makes env (copies work.dst work.src work.len) acts) :
    CopiesExactly env work acts := by
  refine ⟨?_,hm.lines⟩
  intro m m' hc
  obtain ⟨hcp,hf⟩ := hc.span hm.moves h.distinct h.apart
  exact ⟨hcp,fun a ha _ => hf a ha⟩

theorem Setup.temp_line (hb : tempBuffer env work.len = some b) :
    l1CacheBytes ∣ tempStart b work.len := by
  unfold tempBuffer tempStart at *
  split_ifs at hb with hlt
  · rw [if_pos hlt]
    exact dvd_mul_left _ _
  · rw [if_neg hlt]
    exact (h.cache b hb).2

theorem Setup.buffer_size (hb : tempBuffer env work.len = some b) :
    Scif.Copy.bufferLen work.len ≤ b.size := by
  have hs : Scif.Copy.scifKmemUnalignedBufSize = kmemUnalignedBufSize := rfl
  unfold tempBuffer at hb
  unfold Scif.Copy.bufferLen
  rw [hs]
  split_ifs at hb with hlt
  · rw [if_pos hlt]
    exact h.kmalloc _ b hb
  · rw [if_neg hlt]
    exact (h.cache b hb).1

theorem Setup.out (hl : work.len ≤ scifMaxUnalignedBufSize) (ho : Own work.src)
    (ha : Away work.dst) (hb : tempBuffer env work.len = some b) :
    Ends (copyThroughBuffer env work (tempStart b work.len) true) (Fails env bug)
    (CopiesExactly env work) := by
  obtain ⟨hlo,hft⟩ := CopyExact.temp_fits_out hl
  have hhi := Nat.le_trans hft (Nat.add_le_add_left (h.buffer_size hb) _)
  have hln := h.temp_line hb
  change b.addr ≤ tempStart b work.len + work.dst.offset % l1CacheBytes at hlo
  change tempStart b work.len + work.dst.offset % l1CacheBytes + work.len ≤ b.addr + b.size at hhi
  unfold copyThroughBuffer
  have ht : (tempStart b work.len + work.dst.offset % l1CacheBytes) % l1CacheBytes =
      work.dst.offset % l1CacheBytes := by
    rw [Nat.add_mod,Nat.mod_eq_zero_of_dvd hln,zero_add,Nat.mod_mod,Nat.mod_mod]
  generalize tempStart b work.len + work.dst.offset % l1CacheBytes = temp at *
  have hin : ∀ i < work.len,InBuffer b (virt temp i) := by
    intro i hi
    unfold InBuffer virt
    omega
  refine Ends.bind (local_cpu_copy h.src ho) ?_
  rintro fill rfl
  refine Ends.bind (map_temp (h.mapped b hb) hlo hhi) ?_
  intro tempPhys hk
  refine Ends.bind (as_enomem_ends (unaligned_copies rfl h.dst ha (h.mapped b hb) hlo hhi ht hk)) ?_
  intro acts hac
  refine ⟨?_,?_⟩
  · intro m m' hc
    have hop : ops env (.cpu (bufferMoves true (bytes work.src) (virt temp) work.len) :: (acts ++
        [.callback []])) =
        .now (span (virt temp) (bytes work.src) work.len) :: (ops env acts ++ [.after []]) := by
      simp [ops,Act.op,bufferMoves]
    rw [hop] at hc
    have hls : moves (ops env acts ++ [.after []]) = span (bytes work.dst) (virt temp) work.len := by
      rw [moves_append,hac.moves]
      exact append_nil _
    obtain ⟨hcp,hf⟩ := completes_filled hc hls (virt_injective temp) h.distinct
      (fun i hi j hj he => (h.src_clear b hb).bytes h.src.range hj (he ▸ hin i hi))
      (fun i hi j hj he => (h.dst_clear b hb).bytes h.dst.range hi (he ▸ hin j hj))
    exact ⟨hcp,fun a ha hn => hf a ha (fun i hi he => hn b hb (he ▸ hin i hi))⟩
  · intro a ha
    simp only [mem_cons,mem_append,not_mem_nil,or_false] at ha
    rcases ha with rfl | ha | rfl
    · trivial
    · exact hac.lines a ha
    · trivial

theorem Setup.into (hl : work.len ≤ scifMaxUnalignedBufSize) (ha : Away work.src)
    (ho : Own work.dst) (hb : tempBuffer env work.len = some b) :
    Ends (copyThroughBuffer env work (tempStart b work.len) false) (Fails env bug)
    (CopiesExactly env work) := by
  obtain ⟨hlo,hhi⟩ := CopyExact.temp_fits_in hl (h.buffer_size hb) work.src.offset
  have hli := h.temp_line hb
  have hln := h.src.range.lines
  have hby := CopyExact.lines_bytes work.src
  unfold CopyExact.Cursor.lines at hln hby
  change b.addr ≤ tempStart b work.len at hlo
  change tempStart b work.len + cacheAlign (work.len + work.src.offset % l1CacheBytes) ≤
    b.addr + b.size at hhi
  unfold copyThroughBuffer
  simp only
  generalize tempStart b work.len = temp at *
  have hof : l1CacheBytes ∣ work.src.offset - work.src.offset % l1CacheBytes := Nat.dvd_sub_mod _
  generalize work.src.offset % l1CacheBytes = pad at *
  have hle : pad + work.len ≤ cacheAlign (work.len + pad) := by
    unfold cacheAlign l1CacheBytes
    omega
  generalize cacheAlign (work.len + pad) = alignedLen at *
  generalize hs : ({ work.src with offset := work.src.offset - pad } : Cursor) = src at *
  have hg : Given env work.loopback src alignedLen := by
    subst hs
    exact ⟨hln,h.src.reach⟩
  have haw : Away src := by
    subst hs
    exact ha
  have hcl : Clear b src := by
    subst hs
    exact h.src_clear b hb
  have ht : temp % l1CacheBytes = src.offset % l1CacheBytes := by
    subst hs
    exact (Nat.mod_eq_zero_of_dvd hli).trans (Nat.mod_eq_zero_of_dvd hof).symm
  have hin : ∀ i < alignedLen,InBuffer b (virt temp i) := by
    intro i hi
    unfold InBuffer virt
    omega
  refine Ends.bind (map_temp (h.mapped b hb) hlo hhi) ?_
  intro tempPhys hk
  refine Ends.bind (as_enomem_ends (unaligned_copies rfl hg haw (h.mapped b hb) hlo hhi ht hk)) ?_
  intro acts hac
  refine Ends.bind (local_cpu_copy h.dst ho) ?_
  rintro done rfl
  refine ⟨?_,?_⟩
  · intro m m' hc
    have hbc : virt (temp + pad) = fun i => virt temp (pad + i) := (virt_add temp pad).symm
    have hop : ops env (acts ++ [.callback (bufferMoves false (bytes work.dst)
        (virt (temp + pad)) work.len)]) =
        ops env acts ++ [.after (span (bytes work.dst) (fun i => virt temp (pad + i)) work.len)] := by
      simp [ops,Act.op,bufferMoves,hbc]
    rw [hop] at hc
    obtain ⟨hcp,hf⟩ := completes_emptied hc hac.moves hle (virt_injective temp) h.distinct
      (fun i hi j hj he => hcl.bytes hg.range hj (he ▸ hin i hi))
      (fun i hi j hj he => (h.dst_clear b hb).bytes h.dst.range hi (he ▸ hin j hj))
    refine ⟨?_,fun a ha hn => hf a ha (fun i hi he => hn b hb (he ▸ hin i hi))⟩
    intro i hi
    rw [hcp i hi,hby]
  · intro a ha
    rcases mem_append.mp ha with ha | ha
    · exact hac.lines a ha
    · rw [mem_singleton.mp ha]
      trivial

/-- Without a loopback the DMA address of the source tells which side is the endpoint's own. -/
theorem Setup.through_buffer (hlp : work.loopback = false)
    (hl : work.len ≤ scifMaxUnalignedBufSize) (hs : Located env.bus work.src.start s)
    (hb : tempBuffer env work.len = some b) :
    Ends (copyThroughBuffer env work (tempStart b work.len) (isLocalDmaAddr env s.addr))
      (Fails env bug) (CopiesExactly env work) := by
  have hr := h.src.reach work.src.window mem_cons_self
  rcases h.sides with ⟨ho,ha⟩ | ⟨ha,ho⟩
  · rw [hr.own (ho work.src.window mem_cons_self) (.inr hlp) s.addr hs.address]
    exact h.out hl ho ha hb
  · rw [hr.away (ha work.src.window mem_cons_self) hlp s.addr hs.address]
    exact h.into hl ha ho hb

theorem Setup.wrapper :
    Ends (micscifRmaListDmaCopyWrapper env work) (Fails env (MayBug env work))
    (CopiesExactly env work) := by
  unfold micscifRmaListDmaCopyWrapper
  by_cases ha : work.dst.offset % l1CacheBytes = work.src.offset % l1CacheBytes
  · rw [if_pos ha]
    exact (aligned_copies h.src h.dst ha.symm (fun hm hl => Or.inr (.inl ⟨hm,hl⟩))).mono
      (fun acts hac => h.direct hac)
  rw [if_neg ha]
  cases hlp : work.loopback with
  | true =>
    cases hm : env.mic with
    | false => exact .inr (.inl ⟨hm,hlp⟩)
    | true =>
      have hc : Ends (micscifRmaListCpuCopy env work) (Fails env False) _ := cpu_copies h.src h.dst
      cases hrs : micscifRmaListCpuCopy env work with
      | ok acts => exact h.direct (hc.result hrs)
      | error e =>
        rw [hrs] at hc
        cases e with
        | errno e => exact .inl hc
        | bug => cases hc
  | false =>
    refine Ends.bind h.src.first ?_
    intro s hs
    refine Ends.bind h.dst.first ?_
    intro _ _
    have hsz : kmemUnalignedBufSize = scifMaxUnalignedBufSize + 2 * l1CacheBytes := rfl
    by_cases hl : work.len + 2 * l1CacheBytes > kmemUnalignedBufSize
    · rw [if_pos hl]
      refine .inr (.inr ⟨decide_eq_true ?_,by omega⟩)
      intro he
      exact ha (by exact_mod_cast he.symm)
    rw [if_neg hl]
    cases hk : env.kzalloc with
    | false =>
      intro hrl
      rw [hrl.compCb] at hk
      cases hk
    | true =>
      have hbf : Ends (orEnomem (tempBuffer env work.len)) (Fails env (MayBug env work))
          (fun b => tempBuffer env work.len = some b) :=
        or_enomem_ends (fun hr => hr.buffer work.len) (fun b hb => hb)
      refine Ends.bind hbf ?_
      exact fun b hb => h.through_buffer hlp (by omega) hs hb

theorem Setup.cpu : Ends (micscifRmaListCpuCopy env work) (Fails env False) (CopiesExactly env work) :=
  (cpu_copies h.src h.dst).mono (fun _ ha => h.direct ha)

end

/-- A copy that is started is exact once completed, in whole cache lines. When no call fails it is
started, unless the engine may not be asked. -/
theorem rma_list_copy_exact (h : Setup env work) :
    (∀ acts,micscifRmaListDmaCopyWrapper env work = .ok acts → CopiesExactly env work acts) ∧
      (∀ acts,micscifRmaListCpuCopy env work = .ok acts → CopiesExactly env work acts) ∧
      (∀ acts,∀ m : Memory UInt8,∃ m',Completes (ops env acts) m m') ∧
      (Reliable env → (∃ acts,micscifRmaListCpuCopy env work = .ok acts) ∧
        ((env.mic = true ∨ work.loopback = false) →
          (scifUnaligned work.src.offset work.dst.offset = true → work.len ≤ scifMaxUnalignedBufSize) →
          ∃ acts,micscifRmaListDmaCopyWrapper env work = .ok acts)) := by
  refine ⟨fun acts ha => h.wrapper.result ha,fun acts ha => h.cpu.result ha,fun acts m =>
    completes_exists m,?_⟩
  intro hr
  refine ⟨h.cpu.returns ?_,?_⟩
  · intro e he
    cases e with
    | errno e => exact he hr
    | bug => exact he
  · intro hsd hs
    refine h.wrapper.returns ?_
    intro e he
    cases e with
    | errno e => exact he hr
    | bug =>
      rcases he with hn | ⟨hm,hl⟩ | ⟨hu,hln⟩
      · exact hn hr
      · rcases hsd with h1 | h1
        · rw [hm] at h1
          cases h1
        · rw [hl] at h1
          cases h1
      · exact absurd (hs hu) (not_le.mpr hln)

def cardEnv : Env where
  mic := true
  numPhyspages := 8
  bus := fun a => if a < 0x8000 then a + 0x10000 else a
  aper := id
  physToVirt := fun a => a + 0x10000
  virtToPhys := fun a => a - 0x10000
  ioremapNocache := fun a _ => some (virt a)
  mapSingle := some
  kzalloc := true
  kmalloc := fun n => some ⟨0x17008,cacheAlign n,Nat.dvd_mul_left _ _⟩
  kmemCacheAlloc := some ⟨0x17000,kmemUnalignedBufSize,by decide⟩
  doDma := fun _ => none
  drainDmaPoll := none
  drainDmaIntr := none
  requestDmaChannel := none

def cardPage (type : WindowType) (offset page dma : Nat) : Window :=
  { type := type,offset := offset,nrPages := 1,pages := [page],chunks := [⟨dma,1⟩] }

def cardWork : CopyWork where
  src := ⟨cardPage .self 0 0x15000 0x5000,[cardPage .self 4096 0x13000 0x3000],4090,⟨0,0⟩⟩
  dst := ⟨cardPage .peer 0 0x9000 0x9000,[],126,⟨0,0⟩⟩
  len := 74
  loopback := false
  ordered := true

theorem card_low (h : a < 0x8000) : cardEnv.bus a = a + 0x10000 := if_pos h

theorem card_high (h : 0x8000 ≤ a) : cardEnv.bus a = a := if_neg (not_lt.mpr h)

theorem card_sound (ho : offset % pageSize = 0) (hd : dma % pageSize = 0)
    (hp : ∀ b < pageSize,cardEnv.bus (dma + b) = page + b) :
    Sound cardEnv.bus (cardPage type offset page dma) := by
  refine ⟨ho,rfl,Nat.zero_lt_one,hd,le_rfl,?_,rfl⟩
  intro i hi b hb
  obtain rfl : i = 0 := Nat.lt_one_iff.mp hi
  simpa [cardPage] using hp b hb

theorem card_address (h : Address (cardPage type offset page dma) a) :
    dma ≤ a ∧ a < dma + pageSize := by
  obtain ⟨c,hc,hle,hlt⟩ := h
  rw [mem_singleton.mp hc,one_mul] at hlt
  rw [mem_singleton.mp hc] at hle
  exact ⟨hle,hlt⟩

theorem card_own (ho : dma + pageSize ≤ 0x8000) :
    Reachable cardEnv false (cardPage .self offset page dma) := by
  have hs : ¬ (cardPage .self offset page dma).type = .peer := by simp [cardPage]
  refine ⟨?_,fun h => absurd h hs,fun h => absurd h hs,fun h => absurd h hs,fun h => absurd h hs⟩
  intro _ _ a ha
  have := card_address ha
  refine decide_eq_true ?_
  show a / pageSize < 8
  unfold pageSize at *
  omega

theorem card_peer (hd : 0x8000 ≤ dma) : Reachable cardEnv false (cardPage .peer offset page dma) := by
  have hpr : ¬ (cardPage .peer offset page dma).type = .self := by simp [cardPage]
  refine ⟨fun h => absurd h hpr,?_,nofun,?_,nofun⟩
  · intro _ _ a ha
    have := card_address ha
    refine decide_eq_false ?_
    show ¬ a / pageSize < 8
    unfold pageSize
    omega
  · intro _ _ _ a len p ha hp k _
    have := card_address ha
    cases hp
    exact (card_high (a := a + k) (by omega)).symm

theorem card_clear (h : ∀ w ∈ c.window :: c.rest,∀ off,cell w off < 0x17000)
    (hb : tempBuffer cardEnv 74 = some b) : Clear b c := by
  cases hb
  intro off _ _ hin
  have hlt : cellAt (c.window :: c.rest) off < 0x17000 :=
    CopyExact.cellAt_lt (by decide) (fun w hw => h w hw off)
  exact absurd hin.1 (not_le.mpr (hlt.trans_le (by decide)))

theorem card_mapped (hb : tempBuffer cardEnv 74 = some b) :
    Mapped cardEnv b.addr (b.addr + b.size) := by
  cases hb
  refine ⟨?_,?_⟩
  · intro a d hlo _ hd
    cases hd
    replace hlo : 0x17008 ≤ a := hlo
    exact ⟨rfl,fun k _ => card_high (by omega)⟩
  · intro a hlo hhi
    replace hlo : 0x17008 ≤ a := hlo
    refine ⟨?_,?_⟩
    · show (a - 0x10000) % 64 = a % 64
      omega
    · intro k hk
      replace hk : a + k < 0x17108 := hk
      exact (card_low (a := a - 0x10000 + k) (by omega)).trans (by omega)

theorem card_dst_bytes : ∀ i < cardWork.len,bytes cardWork.dst i = 0x907E + i := by decide

theorem card_src_bytes : ∀ i < cardWork.len,0x13000 ≤ bytes cardWork.src i := by decide

theorem card_setup : Setup cardEnv cardWork where
  src := by
    have hbs : ∀ p b,p + pageSize ≤ 0x8000 → b < pageSize → cardEnv.bus (p + b) = p + 0x10000 + b := by
      intro p b hp hb
      rw [card_low (by omega)]
      omega
    refine ⟨⟨⟨card_sound rfl rfl (fun b hb => hbs 0x5000 b (by decide) hb),Nat.zero_lt_one,?_,
      card_sound rfl rfl (fun b hb => hbs 0x3000 b (by decide) hb),Nat.zero_lt_one,nofun,trivial⟩,
      by decide,by decide,by decide⟩,?_⟩
    · intro v hv
      cases hv
      rfl
    · intro w hw
      rcases mem_pair.mp hw with rfl | rfl
      all_goals exact card_own (by decide)
  dst := by
    refine ⟨⟨⟨card_sound rfl rfl fun b _ => card_high (by omega),Nat.zero_lt_one,nofun,trivial⟩,
      by decide,by decide,by decide⟩,?_⟩
    intro w hw
    rw [mem_singleton.mp hw]
    exact card_peer (by decide)
  sides := Or.inl ⟨by simp [Own,cardWork,cardPage],by simp [Away,cardWork,cardPage]⟩
  apart := by
    intro i hi j hj
    have hs := card_src_bytes j hj
    replace hi : i < 74 := hi
    rw [card_dst_bytes i hi]
    omega
  distinct := by
    intro i hi j hj he
    rw [card_dst_bytes i hi,card_dst_bytes j hj] at he
    omega
  kmalloc := by
    intro n b hb
    cases hb
    show n ≤ cacheAlign n
    unfold cacheAlign l1CacheBytes
    omega
  cache := by
    intro b hb
    cases hb
    exact ⟨le_rfl,by decide⟩
  mapped := fun b hb => card_mapped hb
  src_clear := by
    refine fun b hb => card_clear ?_ hb
    intro w hw off
    rcases mem_pair.mp hw with rfl | rfl
    · exact (CopyExact.page_cell_lt .self 0 0x15000 off).trans_le (by decide)
    · exact (CopyExact.page_cell_lt .self 4096 0x13000 off).trans_le (by decide)
  dst_clear := by
    refine fun b hb => card_clear ?_ hb
    intro w hw off
    rw [mem_singleton.mp hw]
    exact (CopyExact.page_cell_lt .peer 0 0x9000 off).trans_le (by decide)

theorem card_reliable : Reliable cardEnv where
  ioremap := fun _ _ h => some_ne_none _ h
  single := fun _ h => some_ne_none _ h
  compCb := rfl
  buffer := by
    intro len
    unfold tempBuffer
    split
    all_goals exact some_ne_none _
  dma := fun _ => rfl
  poll := rfl
  intr := rfl
  channel := rfl

theorem rma_list_copy_across :
    ∃ acts,micscifRmaListDmaCopyWrapper cardEnv cardWork = .ok acts ∧ (∀ a ∈ acts,Act.Aligned a) ∧
      ∀ m m' : Memory UInt8,Completes (ops cardEnv acts) m m' → m' 0x9084 = m 0x13000 := by
  obtain ⟨hd,_,_,hr⟩ := rma_list_copy_exact card_setup
  obtain ⟨acts,ha⟩ := (hr card_reliable).2 (.inl rfl) (fun _ => by decide)
  have he := hd acts ha
  refine ⟨acts,ha,he.lines,?_⟩
  intro m m' hc
  have hs : bytes cardWork.src 6 = 0x13000 := by decide
  have hcp := (he.exact m m' hc).copied 6 (by decide)
  rwa [hs,card_dst_bytes 6 (by decide)] at hcp

end Mpss.Proofs.RmaExact
