import Mpss.Proofs.RmaPlaces

namespace Mpss.Proofs.RmaMoves
open Library.Outcomes Library.Moves Scif.Transfer WindowRun CopyLoops RmaPlaces Micscif.RmaDma List
open Scif.Copy (pageSize WindowType Chunk Window Ptr virt DmaAddr Cursor CopyWork bufferMoves headLen)
open CopyExact (Range Own Away)

/-- The engine copies whole cache lines. -/
def Act.Aligned : Act → Prop
  | .dma d => l1CacheBytes ∣ d.src ∧ l1CacheBytes ∣ d.dst ∧ l1CacheBytes ∣ d.len
  | _ => True

/-- The acts make the moves, and the engine's part of them in whole cache lines. -/
structure Makes (env : Env) (vs : List Move) (acts : List Act) : Prop where
  moves : moves (ops env acts) = vs
  lines : ∀ a ∈ acts,Act.Aligned a

variable {env : Env} {vs us : List Move} {acts as : List Act}

variable {c : Cursor}

theorem Makes.nil (env : Env) : Makes env [] [] := ⟨rfl,fun _ ha => absurd ha not_mem_nil⟩

theorem Makes.single (hm : (a.op env).moves = vs) (ha : Act.Aligned a) : Makes env vs [a] := by
  refine ⟨(append_nil _).trans hm,?_⟩
  intro b hb
  rw [mem_singleton.mp hb]
  exact ha

theorem Makes.append (h : Makes env vs acts) (h' : Makes env us as) :
    Makes env (vs ++ us) (acts ++ as) := by
  refine ⟨?_,?_⟩
  · rw [ops,map_append,moves_append]
    exact congrArg₂ _ h.moves h'.moves
  · exact forall_mem_append.mpr ⟨h.lines,h'.lines⟩

theorem makes (env : Env) : Trace (Makes env) := ⟨.nil env,.append⟩

theorem Makes.cpu (env : Env) (vs : List Move) : Makes env vs [.cpu vs] := .single rfl trivial

theorem do_dma_makes (hs : l1CacheBytes ∣ d.src) (hd : l1CacheBytes ∣ d.dst)
    (hl : l1CacheBytes ∣ d.len) : Ends (doDma env d) (Fails env bug) (fun a =>
      Makes env (span (fun k => env.bus (d.dst + k)) (fun k => env.bus (d.src + k)) d.len) [a]) :=
  attempt_ends (fun hr => hr.dma d) (.single rfl ⟨hs,hd,hl⟩)

theorem dma_piece (hs : l1CacheBytes ∣ src) (hd : l1CacheBytes ∣ dst)
    (hl : l1CacheBytes ∣ loopLen) (hp : 0 < loopLen) (hle : loopLen ≤ remaining) :
    Ends (dmaPiece env ordered tailLen src dst loopLen remaining) (Fails env bug)
      (Makes env (span (fun k => env.bus (dst + k)) (fun k => env.bus (src + k)) loopLen)) := by
  unfold dmaPiece
  by_cases hsp : splits ordered tailLen loopLen remaining = true
  · rw [if_pos hsp]
    have hln : l1CacheBytes ≤ loopLen := Nat.le_of_dvd hp hl
    have hls : remaining - loopLen = 0 := by
      simp only [splits,Bool.and_eq_true,decide_eq_true_eq] at hsp
      exact hsp.1.2
    rw [if_neg (not_lt.mpr hln)]
    generalize hf : loopLen - l1CacheBytes = first
    have hfr : l1CacheBytes ∣ first := hf ▸ Nat.dvd_sub hl (dvd_refl _)
    have hr : remaining - first = l1CacheBytes := by omega
    refine Ends.bind (do_dma_makes hs hd hfr) ?_
    intro body hb
    refine Ends.bind (do_dma_makes (Nat.dvd_add hs hfr) (Nat.dvd_add hd hfr) (hr ▸ dvd_refl _)) ?_
    intro last hls
    have hbt := hb.append hls
    have hsm : loopLen = first + (remaining - first) := by omega
    simp only [add_assoc] at hbt
    rw [hsm,span_add]
    exact hbt
  · rw [if_neg hsp]
    refine Ends.bind (do_dma_makes hs hd hl) ?_
    exact fun body hb => hb

theorem dma_loop (ordered : Bool) (hs : Room env.bus P l1CacheBytes src n)
    (hd : Room env.bus P l1CacheBytes dst n) (hn : l1CacheBytes ∣ n) (tailLen : Nat) :
    Ends (dmaLoop env ordered tailLen n src dst n) (Fails env bug)
    (Copied (Makes env) env.bus P src dst n) := by
  refine CopyLoops.dma_loop (ends (Fails env bug)) (makes env) (fun h hl => enter_ends h hl)
    (fun h hl => get_dma_addr h.at_ hl h.at_.valid) (fun h => h.found) (dmaLoop env ordered tailLen)
    (dmaPiece env ordered tailLen) ?_ (fun _ _ _ _ => rfl) ?_ (by decide) hs hd hn le_rfl
  · intro fuel _ _
    cases fuel with
    | zero | succ fuel => rfl
  · intro src dst s d len n hsl hdl hs0 hd0 hl hps hle hsn hdn
    have hc : span (fun k => env.bus (d.addr + k)) (fun k => env.bus (s.addr + k)) len =
      copies dst src len :=
      span_congr (fun k hk => hdl.found.bytes (by omega)) (fun k hk => hsl.found.bytes (by omega))
    rw [← hc]
    exact dma_piece (hsl.dvd_addr hs0) (hdl.dvd_addr hd0) hl hps hle

theorem unaligned_memcpy {dst src : Ptr} {count : Nat} :
    Makes env (span dst src count) (micscifUnalignedMemcpy dst src count ordered) := by
  unfold micscifUnalignedMemcpy orderedMemcpy
  cases ordered with
  | false => exact .cpu env _
  | true =>
    by_cases hc : count = 0
    · subst hc
      exact .nil env
    · have hs : count = (count - 1) + 1 := by omega
      rw [if_neg hc]
      conv => arg 2; rw [hs,span_add]
      exact (Makes.cpu env _).append (Makes.cpu env _)

variable {loopback : Bool}

theorem copy_piece (hs : Place env loopback src m)
    (hd : Place env loopback dst m) (hsl : Located env.bus src s) (hdl : Located env.bus dst d)
    (hb : env.mic = false → loopback = true → bug) {ordered : Bool} :
    Ends (copyPiece env loopback src dst s.addr d.addr m ordered) (Fails env bug)
    (Makes env (copies dst src m)) := by
  refine Ends.bind (hs.virt hsl hb) ?_
  intro p hp
  refine Ends.bind (hd.virt hdl hb) ?_
  intro q hq
  have hc : span q p m = copies dst src m := span_congr hq hp
  rw [← hc]
  cases isLocalDmaAddr env s.addr with
  | true => exact unaligned_memcpy
  | false => exact Makes.cpu env _

/-- The run of a cursor and how its memory is reached. -/
abbrev Reached (env : Env) (loopback : Bool) : Cursor → Prop := On env.bus (Reachable env loopback)

theorem On.place (h : Reached env loopback c) (hl : c.offset < c.window.endOffset)
    (hp : InPage c m) : Place env loopback c m := ⟨h.at_,hl,hp,h.here⟩

theorem drain_first (hr : Reliable env → drain = none) :
    Ends (drainFirst ordered drain) (Fails env bug) (Makes env []) := by
  cases ordered with
  | false => exact Makes.nil env
  | true => exact attempt_ends hr (.single rfl trivial)

theorem copy_tail (hs : Room env.bus (Reachable env work.loopback) l1CacheBytes src m)
    (hd : Room env.bus (Reachable env work.loopback) l1CacheBytes dst m) (hm : m < l1CacheBytes)
    (hb : env.mic = false → work.loopback = true → bug) :
    Ends (copyTail env work src dst m) (Fails env bug) (Makes env (copies dst src m)) := by
  unfold copyTail
  by_cases h0 : m = 0
  · subst h0
    exact Makes.nil env
  rw [if_neg h0]
  obtain ⟨hs,hsl,hso⟩ := hs
  obtain ⟨hd,hdl,hdo⟩ := hd
  refine Ends.bind (enter_ends hs (by omega)) ?_
  rintro src1 ⟨hs1,hsa,hst⟩
  refine Ends.bind (enter_ends hd (by omega)) ?_
  rintro dst1 ⟨hd1,hda,hdt⟩
  refine Ends.bind (dma_addr_at hs1.at_ hst) ?_
  intro s hs
  refine Ends.bind (dma_addr_at hd1.at_ hdt) ?_
  intro d hd
  refine Ends.bind (drain_first (fun hr => hr.poll)) ?_
  intro drained hdd
  refine Ends.bind (copy_piece (On.place hs1 hst (in_page_of_dvd hsa (hso h0) hm))
    (On.place hd1 hdt (in_page_of_dvd hda (hdo h0) hm)) hs hd hb) ?_
  intro tail ht
  rw [copies_enter hda hsa]
  exact hdd.append ht

structure Given (env : Env) (loopback : Bool) (c : Cursor) (len : Nat) : Prop where
  range : Range env.bus c len
  reach : ∀ w ∈ c.window :: c.rest,Reachable env loopback w

variable {work : CopyWork}

section
variable (h : Given env loopback c len)
include h

theorem Given.start : Reached env loopback c.start := ⟨h.range.start,h.reach⟩

theorem Given.first : Ends (dmaAddrAt c) fails (Located env.bus c.start) :=
  dma_addr_at (c := c.start) h.start.at_ h.range.upper

theorem Given.place (hl : c.offset % l1CacheBytes + n ≤ l1CacheBytes) : Place env loopback c.start n :=
  On.place h.start h.range.upper (in_page_of_line hl)

end

section
variable (hs : Given env work.loopback work.src work.len)
  (hd : Given env work.loopback work.dst work.len)
  (ha : work.src.offset % l1CacheBytes = work.dst.offset % l1CacheBytes)
  (hb : env.mic = false → work.loopback = true → bug)
include hs hd ha hb

theorem copy_head :
    Ends (copyHead env work) (Fails env bug)
      (Makes env (copies work.dst work.src (headLen work.src.offset work.len))) := by
  have hl := headLen_in_line work.src.offset work.len
  unfold copyHead
  by_cases h0 : work.src.offset % l1CacheBytes = 0
  · rw [if_pos h0,headLen,if_pos h0]
    exact Makes.nil env
  rw [if_neg h0]
  refine Ends.bind hs.first ?_
  intro s hsl
  refine Ends.bind hd.first ?_
  intro d hdl
  exact copy_piece (hs.place hl) (hd.place (ha ▸ hl)) hsl hdl hb

theorem aligned_copies :
    Ends (micscifRmaListDmaCopyAligned env work) (Fails env bug)
    (Makes env (copies work.dst work.src work.len)) := by
  unfold micscifRmaListDmaCopyAligned
  rw [if_neg (not_not.mpr ha)]
  exact aligned_parts (ends (Fails env bug)) (makes env)
    (fun tailLen n src dst => dmaLoop env work.ordered tailLen n src dst n)
    (copyTail env work) hs.start hd.start
    hs.range.upper hd.range.upper hs.range.fits hd.range.fits ha.symm (copy_head hs hd ha hb)
    (fun h h' hl => dma_loop work.ordered h h' hl) (fun h h' hl => copy_tail h h' hl hb)

end

theorem cpu_copies (hs : Given env work.loopback work.src work.len)
    (hd : Given env work.loopback work.dst work.len) :
    Ends (micscifRmaListCpuCopy env work) (Fails env bug)
    (Makes env (copies work.dst work.src work.len)) := by
  refine cpu_loop (ends (Fails env bug)) (makes env) (fun h hl => enter_ends h hl)
    (cpuLoop env work.loopback)
    (windowVirt env work.loopback) Act.cpu ?_ (fun _ _ _ _ => rfl) (Makes.cpu env)
    (fun h hl hp => (On.place h hl hp).window_virt) hs.start hd.start hs.range.upper
    hd.range.upper hs.range.fits
    hd.range.fits le_rfl
  intro fuel _ _
  cases fuel with
  | zero | succ fuel => rfl

/-- Windows of one kind whose memory is reached. -/
def Kind (env : Env) (loopback : Bool) (type : WindowType) (w : Window) : Prop :=
  Reachable env loopback w ∧ w.type = type

theorem On.kind (h : On env.bus (Kind env loopback type) c) : Reached env loopback c :=
  ⟨h.at_,fun w hw => (h.all w hw).1⟩

theorem Given.kind (h : Given env loopback c len) (ht : ∀ w ∈ c.window :: c.rest,w.type = type) :
    On env.bus (Kind env loopback type) c.start :=
  ⟨h.range.start,fun w hw => ⟨h.reach w hw,ht w hw⟩⟩

theorem local_cpu_copy (hc : Given env loopback c len) (ho : Own c) :
    Ends (micscifRmaLocalCpuCopy env c.start temp len toTemp) fails
      (fun vs => vs = bufferMoves toTemp (bytes c) (virt temp) len) := by
  have hs : c.start.window.type = .self := ho c.window mem_cons_self
  unfold micscifRmaLocalCpuCopy
  rw [if_neg (not_not.mpr hs)]
  refine local_copy (ends fails) (fun h hl => enter_ends h hl) (localLoop env toTemp)
    (fun c => getLocalVa env c.window c.offset) ?_ (fun _ _ _ _ => rfl)
    (fun h hl hp => (On.place (On.kind h) hl hp).local_va (.inl h.here.2))
    (hc.kind ho) hc.range.upper hc.range.fits
    temp
  intro fuel _ _
  cases fuel with
  | zero | succ fuel => rfl

theorem temp_copy (hp : Points c m p) :
    Makes env (bufferMoves (!srcLocal) (bytes c) (virt temp) m)
    (tempCopy srcLocal p temp m ordered) := by
  rw [← buffer_moves_congr (!srcLocal) hp (fun k _ => rfl)]
  cases srcLocal with
  | true => exact unaligned_memcpy
  | false => exact Makes.cpu env _

theorem temp_head (hc : Given env loopback c len) (ha : Away c) :
    Ends (tempHead env loopback ordered srcLocal c.start temp len) (Fails env bug)
      (Makes env (bufferMoves (!srcLocal) (bytes c) (virt temp) (headLen c.offset len))) := by
  have ho : c.start.offset = c.offset := rfl
  unfold tempHead
  rw [ho]
  split_ifs with h0
  · rw [headLen,if_pos h0,buffer_moves_zero]
    exact Makes.nil env
  · refine Ends.bind ((hc.place (headLen_in_line c.offset len)).gtt (ha c.window mem_cons_self)) ?_
    exact fun p hp => temp_copy hp

theorem temp_tail (hc : Room env.bus (Kind env loopback .peer) l1CacheBytes c m)
    (hm : m < l1CacheBytes) (temp : Nat) :
    Ends (tempTail env loopback ordered srcLocal c temp m) (Fails env bug)
      (Makes env (bufferMoves (!srcLocal) (bytes c) (virt temp) m)) := by
  unfold tempTail
  by_cases h0 : m = 0
  · rw [if_pos h0,h0,buffer_moves_zero]
    exact Makes.nil env
  rw [if_neg h0]
  have hl := hc.fits
  refine Ends.bind (enter_ends hc.on (by omega)) ?_
  rintro d ⟨hd,hda,hdl⟩
  refine Ends.bind ((On.place (On.kind hd) hdl (in_page_of_dvd hda (hc.whole h0) hm)).gtt hd.here.2) ?_
  intro p hp
  refine Ends.bind (drain_first (fun hr => hr.intr)) ?_
  intro drained hdd
  rw [← buffer_moves_enter _ hda]
  exact hdd.append (temp_copy hp)

/-- Memory from `lo` to `hi` as DMA knows it: its addresses lead back to it, at the same place in
the cache line. -/
structure Mapped (env : Env) (lo hi : Nat) : Prop where
  single : ∀ a d,lo ≤ a → a ≤ hi → env.mapSingle a = some d →
    d % l1CacheBytes = a % l1CacheBytes ∧ ∀ k,a + k < hi → env.bus (d + k) = a + k
  phys : ∀ a,lo ≤ a → a ≤ hi →
    env.virtToPhys a % l1CacheBytes = a % l1CacheBytes ∧ ∀ k,a + k < hi →
    env.bus (env.virtToPhys a + k) = a + k

theorem temp_piece (hw : Located env.bus c w) (hc : l1CacheBytes ∣ c.offset)
    (ht : l1CacheBytes ∣ tempDma)
    (hl : l1CacheBytes ∣ loopLen) (hp : 0 < loopLen) (hle : loopLen ≤ remaining)
    (hn : loopLen ≤ w.nrBytes)
    (hcl : ∀ k < loopLen,env.bus (tempDma + k) = temp + k) :
    Ends (tempPiece env ordered srcLocal tailLen w.addr tempDma loopLen remaining) (Fails env bug)
      (Makes env (bufferMoves (!srcLocal) (bytes c) (virt temp) loopLen)) := by
  have hb : ∀ k < loopLen,env.bus (w.addr + k) = bytes c k := fun k hk => hw.found.bytes (by omega)
  have hm : bufferMoves (!srcLocal) (fun k => env.bus (w.addr + k))
      (fun k => env.bus (tempDma + k)) loopLen =
      bufferMoves (!srcLocal) (bytes c) (virt temp) loopLen := buffer_moves_congr _ hb hcl
  rw [← hm]
  cases srcLocal with
  | true => exact dma_piece ht (hw.dvd_addr hc) hl hp hle
  | false =>
    refine Ends.bind (do_dma_makes (hw.dvd_addr hc) ht hl) ?_
    exact fun body hbd => hbd

/-- The buffer at `temp` as the engine is told of it. -/
def Known (env : Env) (temp tempPhys n : Nat) : Prop :=
  env.mic = false → tempPhys % l1CacheBytes = temp % l1CacheBytes ∧ ∀ k < n,env.bus
    (tempPhys + k) = temp + k

theorem Known.skip (h : Known env temp phys n) (hl : len + rest ≤ n) :
    Known env (temp + len) (phys + len) rest := by
  intro hm
  obtain ⟨hmd,hc⟩ := h hm
  refine ⟨by rw [Nat.add_mod,hmd,← Nat.add_mod],?_⟩
  intro k hk
  rw [add_assoc,hc (len + k) (by omega),add_assoc]

/-- Whole cache lines of memory inside `lo` to `hi`. -/
structure Placed (env : Env) (lo hi temp phys n : Nat) : Prop where
  lower : lo ≤ temp
  upper : temp + n ≤ hi
  line : n ≠ 0 → l1CacheBytes ∣ temp
  told : Known env temp phys n

theorem Placed.engine (h : Placed env lo hi temp phys n) (hmp : Mapped env lo hi) (hn : n ≠ 0) :
    l1CacheBytes ∣ (if env.mic then env.virtToPhys temp else phys) ∧
      ∀ k < n,env.bus ((if env.mic then env.virtToPhys temp else phys) + k) = temp + k := by
  have := h.upper
  have ha : (if env.mic then env.virtToPhys temp else phys) % l1CacheBytes = temp % l1CacheBytes ∧
      ∀ k < n,env.bus ((if env.mic then env.virtToPhys temp else phys) + k) = temp + k := by
    cases hm : env.mic with
    | true =>
      obtain ⟨hmd,hc⟩ := hmp.phys temp h.lower (by omega)
      exact ⟨hmd,fun k hk => hc k (by omega)⟩
    | false => exact h.told hm
  exact ⟨Nat.dvd_of_mod_eq_zero (ha.1.trans (Nat.mod_eq_zero_of_dvd (h.line hn))),ha.2⟩

theorem temp_loop (ordered srcLocal : Bool) (hc : Room env.bus P l1CacheBytes c n)
    (hln : l1CacheBytes ∣ n) (hmp : Mapped env lo hi)
    (hk : Placed env lo hi temp phys n) (tailLen : Nat) :
    Ends (tempLoop env ordered srcLocal tailLen n c temp phys n) (Fails env bug)
      (Passed (Makes env) env.bus P (!srcLocal) tailLen c temp n) := by
  refine CopyLoops.temp_loop (ends (Fails env bug)) (makes env) (fun h hl => enter_ends h hl)
    (fun h hl => dma_addr_at h.at_ hl) (fun h => h.found) (tempLoop env ordered srcLocal tailLen)
    (fun w temp phys len n => tempPiece env ordered srcLocal tailLen w.addr
      (if env.mic then env.virtToPhys temp else phys) len n)
    (fun len n => if srcLocal && splits ordered tailLen len n then l1CacheBytes else len)
    (Placed env lo hi) ?_ (fun _ _ _ _ _ => rfl) ?_ ?_ ?_ (by decide) hc hln le_rfl hk
  · intro fuel _ _ _
    cases fuel with
    | zero | succ fuel => rfl
  · intro c w temp phys len n hw hc hl hp hle hwl hk
    obtain ⟨ht,hb⟩ := hk.engine hmp (by omega)
    exact temp_piece hw hc ht hl hp hle hwl (fun k hk => hb k (by omega))
  · intro len n h
    have hs : splits ordered tailLen len n = false := by
      rcases h with h | h
      all_goals simp [splits,h]
    rw [hs,Bool.and_false]
    rfl
  · rintro temp phys len n hl hle ⟨hlo,hhi,hln,hk⟩
    exact ⟨by omega,by omega,fun hne => Nat.dvd_add (hln (by omega)) hl,hk.skip (by omega)⟩

theorem take_channel : Ends (takeChannel env released) (Fails env bug) (fun _ => True) := by
  cases released with
  | true => exact attempt_ends (fun hr => hr.channel) trivial
  | false => exact trivial

theorem map_temp (hmp : Mapped env lo hi) (hlo : lo ≤ temp) (hhi : temp + n ≤ hi) :
    Ends (mapTemp env temp) (Fails env bug) (fun tempPhys => Known env temp tempPhys n) := by
  unfold mapTemp
  cases hm : env.mic with
  | true => exact fun hm' => absurd (hm.symm.trans hm') (by decide)
  | false =>
    refine or_enomem_ends (fun hr => hr.single temp) ?_
    intro d hd _
    obtain ⟨hmd,hc⟩ := hmp.single temp d hlo (by omega) hd
    exact ⟨hmd,fun k hk => hc k (by omega)⟩

theorem unaligned_copies (hw : (if srcLocal then work.dst.start else work.src.start) = c.start)
    (hc : Given env work.loopback c work.len) (ha : Away c) (hmp : Mapped env lo hi) (hlo : lo ≤ temp)
    (hhi : temp + work.len ≤ hi) (htm : temp % l1CacheBytes = c.offset % l1CacheBytes)
    (hkn : Known env temp tempPhys work.len) :
    Ends (micscifRmaListDmaCopyUnaligned env work temp tempPhys srcLocal) (Fails env bug)
      (Makes env (bufferMoves (!srcLocal) (bytes c) (virt temp) work.len)) := by
  have hle := headLen_le c.start.offset work.len
  unfold micscifRmaListDmaCopyUnaligned
  simp only [hw]
  refine unaligned_parts (ends (Fails env bug)) (makes env)
    (fun tailLen n c temp phys => tempLoop env work.ordered srcLocal tailLen n c temp phys n)
    (fun c temp n => tempTail env work.loopback work.ordered srcLocal c temp n)
    (Placed env lo hi) (hc.kind ha)
    hc.range.upper hc.range.fits (temp_head hc ha) ?_
    (fun h hl hk => temp_loop work.ordered srcLocal h hl hmp hk)
    (fun h hl temp => temp_tail h hl temp) ?_
  · rintro n rfl
    exact ⟨by omega,by omega,fun hne => headLen_aligned (by omega) htm,hkn.skip (by omega)⟩
  intro head body tail hm
  refine Ends.bind (take_channel) ?_
  intro _ _
  refine Ends.bind (do_dma_makes (Nat.dvd_zero _) (Nat.dvd_zero _) (Nat.dvd_zero _)) ?_
  intro last hls
  have hac := hm.append hls
  exact ⟨hac.moves.trans (append_nil _),hac.lines⟩

theorem as_enomem_ends (h : Ends x (Fails env bug) post) : Ends (asEnomem x) (Fails env bug) post := by
  cases x with
  | ok a => exact h
  | error e =>
    cases e with
    | errno e | bug => exact h

end Mpss.Proofs.RmaMoves
