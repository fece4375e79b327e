import Mpss.Library.Outcomes
import Mpss.Proofs.WindowRun

namespace Mpss.Proofs.CopyLoops
open Library.Outcomes Library.Moves Scif.Transfer Scif.Copy WindowRun List

def copies (dst src : Cursor) (n : Nat) : List Move := span (bytes dst) (bytes src) n

theorem copies_add (hd : Ahead dst dst' a) (hs : Ahead src src' a) (b : Nat) :
    copies dst src (a + b) = copies dst src a ++ copies dst' src' b := by
  unfold copies
  rw [span_add]
  congr 1
  exact span_congr (fun k _ => (hd.bytes k).symm) (fun k _ => (hs.bytes k).symm)

theorem copies_enter (hd : Ahead dst dst' 0) (hs : Ahead src src' 0) (n : Nat) :
    copies dst src n = copies dst' src' n := by
  have h := copies_add hd hs n
  rw [zero_add] at h
  exact h

@[simp] theorem buffer_moves_zero (toTemp : Bool) (window temp : Ptr) :
    bufferMoves toTemp window temp 0 = [] := by
  cases toTemp with
  | false | true => rfl

theorem buffer_moves_add :
    bufferMoves toTemp window temp (a + b) =
      bufferMoves toTemp window temp a ++ bufferMoves toTemp (window.add a) (temp.add a) b := by
  cases toTemp with
  | false | true => exact span_add

theorem buffer_moves_congr (toTemp : Bool) (hw : ∀ k < n,window k = window' k)
    (ht : ∀ k < n,temp k = temp' k) :
    bufferMoves toTemp window temp n = bufferMoves toTemp window' temp' n := by
  cases toTemp with
  | false => exact span_congr hw ht
  | true => exact span_congr ht hw

theorem virt_add (a n : Nat) : (virt a).add n = virt (a + n) := by
  funext k
  exact (add_assoc a n k).symm

theorem buffer_moves_ahead (toTemp : Bool) (h : Ahead c d a) (temp b : Nat) :
    bufferMoves toTemp (bytes c) (virt temp) (a + b) =
      bufferMoves toTemp (bytes c) (virt temp) a ++ bufferMoves toTemp (bytes d)
      (virt (temp + a)) b := by
  rw [buffer_moves_add,virt_add]
  congr 1
  exact buffer_moves_congr toTemp (fun k _ => (h.bytes k).symm) (fun k _ => rfl)

theorem buffer_moves_enter (toTemp : Bool) (h : Ahead c d 0) (temp : Ptr) (n : Nat) :
    bufferMoves toTemp (bytes d) temp n = bufferMoves toTemp (bytes c) temp n :=
  buffer_moves_congr toTemp (fun k _ => by rw [h.bytes,zero_add]) (fun k _ => rfl)

theorem dvd_min {a b c : Nat} (ha : c ∣ a) (hb : c ∣ b) : c ∣ min a b := by
  rcases le_total a b with h | h
  · rwa [min_eq_left h]
  · rwa [min_eq_right h]

def Points (c : Cursor) (m : Nat) (p : Ptr) : Prop := ∀ k < m,p k = bytes c k

structure On (bus : Nat → Nat) (P : Window → Prop) (c : Cursor) : Prop where
  at_ : At bus c
  all : ∀ w ∈ c.window :: c.rest,P w

theorem On.here (h : On bus P c) : P c.window := h.all c.window mem_cons_self

theorem enter_windows {c d : Cursor} (he : c.enter = some d) :
    ∀ w ∈ d.window :: d.rest,w ∈ c.window :: c.rest := by
  unfold Scif.Copy.Cursor.enter at he
  split at he
  · split at he
    · rename_i w ws hr
      cases he
      exact fun v hv => .tail _ (hr ▸ hv)
    · cases he
  · cases he
    exact fun v hv => hv

structure Entered (bus : Nat → Nat) (P : Window → Prop) (c d : Cursor) : Prop where
  on : On bus P d
  ahead : Ahead c d 0
  inside : d.offset < d.window.endOffset

theorem On.enter (h : On bus P c) (hl : c.offset < limit c) : Returns c.enter (Entered bus P c) := by
  obtain ⟨d,hd,hd1,hda,hdl⟩ := h.at_.enter hl
  exact ⟨d,hd,⟨hd1,fun w hw => h.all w (enter_windows hd w hw)⟩,hda,hdl⟩

theorem On.advance (h : On bus P c) (hv : Valid bus c.window c.offset it)
    (hn : c.offset + n ≤ c.window.endOffset) :
    On bus P (c.advance it n) ∧ Ahead c (c.advance it n) n := by
  obtain ⟨ha,hd⟩ := h.at_.advance hv hn
  exact ⟨⟨ha,h.all⟩,hd⟩

theorem in_window (h : At bus c) (hlt : c.offset < c.window.endOffset) (hm : InPage c m) :
    c.offset + m ≤ c.window.endOffset := by
  have hal := h.sound.aligned
  unfold InPage Window.endOffset pageSize at *
  omega

theorem headLen_le (off len : Nat) : headLen off len ≤ len := by
  unfold headLen
  split
  · exact Nat.zero_le _
  · exact min_le_right _ _

theorem headLen_in_line (off len : Nat) : off % l1CacheBytes + headLen off len ≤ l1CacheBytes := by
  unfold headLen l1CacheBytes
  split
  all_goals omega

theorem headLen_aligned (hl : len - headLen off len ≠ 0)
    (ho : off' % l1CacheBytes = off % l1CacheBytes) : l1CacheBytes ∣ off' + headLen off len := by
  by_cases h0 : off % l1CacheBytes = 0
  · rw [headLen,if_pos h0]
    exact Nat.dvd_of_mod_eq_zero (ho.trans h0)
  · rw [headLen,if_neg h0] at hl ⊢
    unfold l1CacheBytes at *
    omega

theorem tail_lines (n : Nat) :
    n % l1CacheBytes < l1CacheBytes ∧ n % l1CacheBytes ≤ n ∧ l1CacheBytes ∣ n - n % l1CacheBytes :=
  ⟨Nat.mod_lt _ (by decide),Nat.mod_le _ _,Nat.dvd_sub_mod n⟩

theorem in_page_of_line (h : c.offset % l1CacheBytes + m ≤ l1CacheBytes) : InPage c m := by
  unfold InPage l1CacheBytes pageSize at *
  omega

theorem in_page_of_dvd (h : Ahead c d 0) (hl : l1CacheBytes ∣ c.offset) (hm : m < l1CacheBytes) :
    InPage d m := by
  refine in_page_of_line ?_
  rw [h.offset,add_zero,Nat.mod_eq_zero_of_dvd hl,zero_add]
  exact hm.le

theorem On.behind (h : On bus P c) (hlt : c.offset < c.window.endOffset)
    (hl : c.offset % l1CacheBytes + n ≤ l1CacheBytes) :
    On bus P (c.advance c.iter n) ∧ Ahead c (c.advance c.iter n) n :=
  h.advance h.at_.valid (in_window h.at_ hlt (in_page_of_line hl))

/-- `n` bytes lie before the cursor, and it stands at a unit if there are any. -/
structure Room (bus : Nat → Nat) (P : Window → Prop) (unit : Nat) (c : Cursor) (n : Nat) : Prop where
  on : On bus P c
  fits : c.offset + n ≤ limit c
  whole : n ≠ 0 → unit ∣ c.offset

/-- How lists of operations stand for lists of moves. -/
structure Trace (Makes : List Move → List ω → Prop) : Prop where
  nil : Makes [] []
  append : Makes vs xs → Makes us ys → Makes (vs ++ us) (xs ++ ys)

/-- What a loop leaves: the moves it was to make, and both cursors further on. -/
structure Copied (Makes : List Move → List ω → Prop) (bus : Nat → Nat) (P : Window → Prop)
    (src dst : Cursor) (n : Nat) (r : List ω × Cursor × Cursor) : Prop where
  makes : Makes (copies dst src n) r.1
  on_src : On bus P r.2.1
  src_ahead : Ahead src r.2.1 n
  on_dst : On bus P r.2.2
  dst_ahead : Ahead dst r.2.2 n

/-- What the loop over the buffer leaves. Where it left the buffer counts only when there is a
tail. -/
structure Passed (Makes : List Move → List ω → Prop) (bus : Nat → Nat) (P : Window → Prop)
    (toTemp : Bool)
    (tailLen : Nat) (c : Cursor) (temp n : Nat) (r : List ω × Cursor × Nat) : Prop where
  makes : Makes (bufferMoves toTemp (bytes c) (virt temp) n) r.1
  on : On bus P r.2.1
  ahead : Ahead c r.2.1 n
  place : tailLen ≠ 0 → r.2.2 = temp + n

section
variable [Monad m] (L : Logic m) {ω : Type} {Makes : List Move → List ω → Prop}
  {bus : Nat → Nat} {P : Window → Prop} {enter : Cursor → m Cursor} {addr : Cursor → m DmaAddr}
  {Q : Cursor → DmaAddr → Prop}
  (hm : Trace Makes) (he : ∀ {c},On bus P c → c.offset < limit c → L.Holds (enter c) (Entered bus P c))
  (ha : ∀ {c},On bus P c → c.offset < c.window.endOffset → L.Holds (addr c) (Q c))
  (hq : ∀ {c d},Q c d → Found bus c.window c.offset d)

include hm he ha hq in
/-- The loop over the pieces that are contiguous on both sides. Each piece is whole units of `unit`
bytes. -/
theorem dma_loop (loop : Nat → Cursor → Cursor → Nat → m (List ω × Cursor × Cursor))
    (piece : Nat → Nat → Nat → Nat → m (List ω))
    (hz : ∀ fuel src dst,loop fuel src dst 0 = pure ([],src,dst))
    (ht : ∀ fuel src dst n,loop (fuel + 1) src dst (n + 1) = do
      let src ← enter src
      let dst ← enter dst
      let s ← addr src
      let d ← addr dst
      let loopLen := min (min s.nrBytes d.nrBytes) (n + 1)
      let ops ← piece s.addr d.addr loopLen (n + 1)
      let rest ← loop fuel (src.advance s.iter loopLen) (dst.advance d.iter loopLen) (n + 1 - loopLen)
      return (ops ++ rest.1,rest.2))
    (hp : ∀ {src dst s d len n},Q src s → Q dst d → unit ∣ src.offset → unit ∣ dst.offset →
      unit ∣ len → 0 < len →
      len ≤ n → len ≤ s.nrBytes → len ≤ d.nrBytes → L.Holds (piece s.addr d.addr len n)
      (Makes (copies dst src len)))
    (hu : unit ∣ pageSize) (hs : Room bus P unit src n) (hd : Room bus P unit dst n) (hn : unit ∣ n)
      (hf : n ≤ fuel) :
    L.Holds (loop fuel src dst n) (Copied Makes bus P src dst n) := by
  induction fuel generalizing src dst n with
  | zero =>
    obtain rfl : n = 0 := Nat.le_zero.mp hf
    exact hz .. ▸ L.pure ⟨hm.nil,hs.on,Ahead.refl,hd.on,Ahead.refl⟩
  | succ fuel ih =>
    cases n with
    | zero => exact hz .. ▸ L.pure ⟨hm.nil,hs.on,Ahead.refl,hd.on,Ahead.refl⟩
    | succ n =>
      obtain ⟨hs,hsn,hso⟩ := hs
      obtain ⟨hd,hdn,hdo⟩ := hd
      rw [ht]
      refine L.bind (he hs (by omega)) ?_
      rintro src1 ⟨hs1,hsa,hst⟩
      refine L.bind (he hd (by omega)) ?_
      rintro dst1 ⟨hd1,hda,hdt⟩
      have hs0 : unit ∣ src1.offset := hsa.offset ▸ hso (Nat.succ_ne_zero n)
      have hd0 : unit ∣ dst1.offset := hda.offset ▸ hdo (Nat.succ_ne_zero n)
      refine L.bind (ha hs1 hst) ?_
      intro s hsq
      refine L.bind (ha hd1 hdt) ?_
      intro d hdq
      have hsf := hq hsq
      have hdf := hq hdq
      have hps : 0 < min (min s.nrBytes d.nrBytes) (n + 1) := by
        have := hsf.pos
        have := hdf.pos
        omega
      have hli : unit ∣ min (min s.nrBytes d.nrBytes) (n + 1) :=
        dvd_min (dvd_min (hsf.dvd_bytes hu hs0) (hdf.dvd_bytes hu hd0)) hn
      generalize hl : min (min s.nrBytes d.nrBytes) (n + 1) = loopLen at hps hli ⊢
      have hln : loopLen ≤ n + 1 := by omega
      have hsi := hsf.inside
      have hdi := hdf.inside
      refine L.bind (hp hsq hdq hs0 hd0 hli hps hln (by omega) (by omega)) ?_
      intro ops ho
      obtain ⟨hs2,hsa2⟩ := hs1.advance hsf.valid (n := loopLen) (by omega)
      obtain ⟨hd2,hda2⟩ := hd1.advance hdf.valid (n := loopLen) (by omega)
      refine L.bind (ih (n := n + 1 - loopLen)
        ⟨hs2,(hsa.trans hsa2 rfl).fits hsn (by omega),fun _ => Nat.dvd_add hs0 hli⟩
        ⟨hd2,(hda.trans hda2 rfl).fits hdn (by omega),fun _ => Nat.dvd_add hd0 hli⟩
        (Nat.dvd_sub hn hli) (by omega)) ?_
      intro rest hr
      refine L.pure ⟨?_,hr.on_src,(hsa.trans hsa2 rfl).trans hr.src_ahead (by omega),hr.on_dst,
        (hda.trans hda2 rfl).trans hr.dst_ahead (by omega)⟩
      have hsm := copies_add hda2 hsa2 (n + 1 - loopLen)
      rw [Nat.add_sub_cancel' hln] at hsm
      rw [copies_enter hda hsa,hsm]
      exact hm.append ho hr.makes

include hm he in
theorem cpu_loop (loop : Nat → Cursor → Cursor → Nat → m (List ω))
    (look : Cursor → Nat → m (Ptr × Iter))
    (copy : List Move → ω) (hz : ∀ fuel src dst,loop fuel src dst 0 = pure [])
    (ht : ∀ fuel src dst n,loop (fuel + 1) src dst (n + 1) = do
      let loopLen := min (pageSize - max (src.offset % pageSize) (dst.offset % pageSize)) (n + 1)
      let s ← look src loopLen
      let d ← look dst loopLen
      if n + 1 - loopLen = 0 then return [copy (span d.1 s.1 loopLen)]
      else
        let src ← enter (src.advance s.2 loopLen)
        let dst ← enter (dst.advance d.2 loopLen)
        let rest ← loop fuel src dst (n + 1 - loopLen)
        return copy (span d.1 s.1 loopLen) :: rest)
    (hc : ∀ vs,Makes vs [copy vs])
    (hl : ∀ {c len},On bus P c → c.offset < c.window.endOffset → InPage c len →
      L.Holds (look c len) (fun r => Points c len r.1 ∧ Valid bus c.window c.offset r.2))
    (hs : On bus P src) (hd : On bus P dst) (hsl : src.offset < src.window.endOffset)
    (hdl : dst.offset < dst.window.endOffset) (hsn : src.offset + n ≤ limit src)
      (hdn : dst.offset + n ≤ limit dst)
    (hf : n ≤ fuel) : L.Holds (loop fuel src dst n) (Makes (copies dst src n)) := by
  induction fuel generalizing src dst n with
  | zero =>
    obtain rfl : n = 0 := Nat.le_zero.mp hf
    exact hz .. ▸ L.pure hm.nil
  | succ fuel ih =>
    cases n with
    | zero => exact hz .. ▸ L.pure hm.nil
    | succ n =>
      have hsm : src.offset % pageSize < pageSize := Nat.mod_lt _ (by decide)
      have hdm : dst.offset % pageSize < pageSize := Nat.mod_lt _ (by decide)
      rw [ht]
      generalize hg : min (pageSize - max (src.offset % pageSize) (dst.offset % pageSize))
        (n + 1) = loopLen
      have hln : loopLen ≤ n + 1 := by omega
      have hsp : InPage src loopLen := by
        unfold InPage
        omega
      have hdp : InPage dst loopLen := by
        unfold InPage
        omega
      refine L.bind (hl hs hsl hsp) ?_
      rintro s ⟨hs',hsv⟩
      refine L.bind (hl hd hdl hdp) ?_
      rintro d ⟨hd',hdv⟩
      have hp : span d.1 s.1 loopLen = copies dst src loopLen := span_congr hd' hs'
      obtain ⟨hs1,hsa1⟩ := hs.advance hsv (in_window hs.at_ hsl hsp)
      obtain ⟨hd1,hda1⟩ := hd.advance hdv (in_window hd.at_ hdl hdp)
      by_cases hrm : n + 1 - loopLen = 0
      · rw [if_pos hrm,show n + 1 = loopLen by omega,← hp]
        exact L.pure (hc _)
      rw [if_neg hrm]
      refine L.bind (he hs1 (Nat.lt_of_lt_of_le (by omega) (hsa1.fits hsn (m := 1) (by omega)))) ?_
      rintro src2 ⟨hs2,hsa2,hsl2⟩
      refine L.bind (he hd1 (Nat.lt_of_lt_of_le (by omega) (hda1.fits hdn (m := 1) (by omega)))) ?_
      rintro dst2 ⟨hd2,hda2,hdl2⟩
      refine L.bind (ih hs2 hd2 hsl2 hdl2 (n := n + 1 - loopLen)
        ((hsa1.trans hsa2 rfl).fits hsn (by omega))
        ((hda1.trans hda2 rfl).fits hdn (by omega)) (by omega)) ?_
      intro rest hr
      have hsu := copies_add hda1 hsa1 (n + 1 - loopLen)
      rw [Nat.add_sub_cancel' hln] at hsu
      rw [hsu,copies_enter hda2 hsa2,← hp]
      exact L.pure (hm.append (hc _) hr)

section
variable (loop : Nat → Cursor → Nat → Nat → m (List Move)) (look : Cursor → m Ptr) {toTemp : Bool}
  (hz : ∀ fuel c temp,loop fuel c temp 0 = pure [])
  (ht : ∀ fuel c temp n,loop (fuel + 1) c temp (n + 1) = do
    let c ← enter c
    let loopLen := min pageSize (n + 1)
    let p ← look c
    let rest ← loop fuel (c.advance c.iter loopLen) (temp + loopLen) (n + 1 - loopLen)
    return bufferMoves toTemp p (virt temp) loopLen ++ rest)
  (hl : ∀ {c len},On bus P c → c.offset < c.window.endOffset → InPage c len → L.Holds (look c)
    (Points c len))

include he hz ht hl

theorem local_loop (hc : On bus P c) (hn : c.offset + n ≤ limit c)
    (hal : n ≠ 0 → c.offset % pageSize = 0)
    (hf : n ≤ fuel) (temp : Nat) :
    L.Holds (loop fuel c temp n) (· = bufferMoves toTemp (bytes c) (virt temp) n) := by
  induction fuel generalizing c n temp with
  | zero =>
    obtain rfl : n = 0 := Nat.le_zero.mp hf
    exact hz .. ▸ L.pure (buffer_moves_zero ..).symm
  | succ fuel ih =>
    cases n with
    | zero => exact hz .. ▸ L.pure (buffer_moves_zero ..).symm
    | succ n =>
      rw [ht]
      refine L.bind (he hc (by omega)) ?_
      rintro d ⟨hd,hda,hdl⟩
      have hps : 0 < pageSize := by decide
      generalize hg : min pageSize (n + 1) = loopLen
      have hp : InPage d loopLen := by
        unfold InPage
        rw [hda.offset,add_zero,hal (Nat.succ_ne_zero n)]
        omega
      refine L.bind (hl hd hdl hp) ?_
      intro p hpt
      obtain ⟨he,hea⟩ := hd.advance hd.at_.valid (in_window hd.at_ hdl hp)
      refine L.bind (ih he (n := n + 1 - loopLen) ((hda.trans hea rfl).fits hn (by omega)) ?_
        (by omega) (temp + loopLen)) ?_
      · intro hne
        rw [hea.offset,hda.offset]
        unfold pageSize at *
        omega
      · rintro rest rfl
        have hs := buffer_moves_ahead toTemp (hda.trans hea rfl) temp (n + 1 - loopLen)
        rw [zero_add,Nat.add_sub_cancel' (by omega)] at hs
        rw [hs,← buffer_moves_enter toTemp hda]
        exact L.pure (congrArg (· ++ _) (buffer_moves_congr toTemp hpt (fun k _ => rfl)))

theorem local_copy (hc : On bus P c) (hlt : c.offset < c.window.endOffset)
    (hn : c.offset + len ≤ limit c) (temp : Nat) :
    L.Holds (do
      let loopLen := min (pageSize - c.offset % pageSize) len
      let p ← look c
      let rest ← loop (len - loopLen) (c.advance c.iter loopLen) (temp + loopLen) (len - loopLen)
      return bufferMoves toTemp p (virt temp) loopLen ++ rest) (· = bufferMoves toTemp (bytes c)
        (virt temp) len) := by
  have hm : c.offset % pageSize < pageSize := Nat.mod_lt _ (by decide)
  generalize hg : min (pageSize - c.offset % pageSize) len = loopLen
  have hp : InPage c loopLen := by
    unfold InPage
    omega
  refine L.bind (hl hc hlt hp) ?_
  intro p hpt
  obtain ⟨hd,hda⟩ := hc.advance hc.at_.valid (in_window hc.at_ hlt hp)
  refine L.bind (local_loop L he loop look hz ht hl hd (n := len - loopLen)
    (hda.fits hn (by omega)) ?_ le_rfl (temp + loopLen)) ?_
  · intro hne
    show (c.offset + loopLen) % pageSize = 0
    unfold pageSize at *
    omega
  · rintro rest rfl
    have hsm := buffer_moves_ahead toTemp hda temp (len - loopLen)
    rw [Nat.add_sub_cancel' (by omega)] at hsm
    rw [hsm]
    exact L.pure (congrArg (· ++ _) (buffer_moves_congr toTemp hpt (fun k _ => rfl)))

end

include hm he ha hq in
/-- The loop over the pieces of a window, to or from the buffer; `Known` says how far the engine
knows it. -/
theorem temp_loop (loop : Nat → Cursor → Nat → Nat → Nat → m (List ω × Cursor × Nat))
    (piece : DmaAddr → Nat → Nat → Nat → Nat → m (List ω)) (step : Nat → Nat → Nat)
    (Known : Nat → Nat → Nat → Prop)
    (hz : ∀ fuel c temp phys,loop fuel c temp phys 0 = pure ([],c,temp))
    (ht : ∀ fuel c temp phys n,loop (fuel + 1) c temp phys (n + 1) = do
      let c ← enter c
      let w ← addr c
      let loopLen := min w.nrBytes (n + 1)
      let ops ← piece w temp phys loopLen (n + 1)
      let rest ← loop fuel (c.advance c.iter loopLen) (temp + step loopLen (n + 1))
        (phys + step loopLen (n + 1)) (n + 1 - loopLen)
      return (ops ++ rest.1,rest.2))
    (hp : ∀ {c w temp phys len n},Q c w → unit ∣ c.offset → unit ∣ len → 0 < len → len ≤ n →
      len ≤ w.nrBytes →
      Known temp phys n → L.Holds (piece w temp phys len n)
      (Makes (bufferMoves toTemp (bytes c) (virt temp) len)))
    (hst : ∀ {len n},tailLen ≠ 0 ∨ n - len ≠ 0 → step len n = len)
    (hk : ∀ {temp phys len n},unit ∣ len → len ≤ n → Known temp phys n → Known (temp + len)
      (phys + len) (n - len))
    (hu : unit ∣ pageSize) (hc : Room bus P unit c n) (hn : unit ∣ n) (hf : n ≤ fuel)
      (hkn : Known temp phys n) :
    L.Holds (loop fuel c temp phys n) (Passed Makes bus P toTemp tailLen c temp n) := by
  have start : ∀ {fuel c temp phys},On bus P c →
      L.Holds (loop fuel c temp phys 0) (Passed Makes bus P toTemp tailLen c temp 0) := by
    intro fuel c temp phys hc
    refine hz .. ▸ L.pure ⟨?_,hc,Ahead.refl,fun _ => rfl⟩
    rw [buffer_moves_zero]
    exact hm.nil
  induction fuel generalizing c temp phys n with
  | zero =>
    obtain rfl : n = 0 := Nat.le_zero.mp hf
    exact start hc.on
  | succ fuel ih =>
    cases n with
    | zero => exact start hc.on
    | succ n =>
      obtain ⟨hc,hcn,hco⟩ := hc
      rw [ht]
      refine L.bind (he hc (by omega)) ?_
      rintro d ⟨hd,hda,hdl⟩
      have hd0 : unit ∣ d.offset := hda.offset ▸ hco (Nat.succ_ne_zero n)
      refine L.bind (ha hd hdl) ?_
      intro w hw
      have hwf := hq hw
      have hps : 0 < min w.nrBytes (n + 1) := by
        have := hwf.pos
        omega
      have hli : unit ∣ min w.nrBytes (n + 1) := dvd_min (hwf.dvd_bytes hu hd0) hn
      generalize hl : min w.nrBytes (n + 1) = loopLen at hps hli ⊢
      have hle : loopLen ≤ n + 1 := by omega
      have hin := hwf.inside
      refine L.bind (hp hw hd0 hli hps hle (by omega) hkn) ?_
      intro ops ho
      rw [buffer_moves_enter _ hda] at ho
      obtain ⟨he',hea⟩ := hd.advance hd.at_.valid (n := loopLen) (by omega)
      by_cases hre : n + 1 - loopLen = 0
      · have hln : n + 1 = loopLen := by omega
        rw [hre,hz]
        refine L.bind (L.pure rfl) ?_
        rintro _ rfl
        refine L.pure ⟨?_,he',hda.trans hea (by omega),?_⟩
        · rw [hln]
          exact (append_nil ops).symm ▸ ho
        · intro htl
          rw [hst (.inl htl),hln]
      · rw [hst (.inr hre)]
        refine L.bind (ih ⟨he',(hda.trans hea rfl).fits hcn (by omega),fun _ => Nat.dvd_add hd0 hli⟩
          (Nat.dvd_sub hn hli) (by omega) (hk hli hle hkn)) ?_
        intro rest hr
        refine L.pure ⟨?_,hr.on,(hda.trans hea rfl).trans hr.ahead (by omega),?_⟩
        · have hs := buffer_moves_ahead toTemp (hda.trans hea rfl) temp (n + 1 - loopLen)
          rw [zero_add,Nat.add_sub_cancel' hle] at hs
          rw [hs]
          exact hm.append ho hr.makes
        · intro htl
          have := hr.place htl
          show rest.2.2 = temp + (n + 1)
          omega

include hm in
theorem aligned_parts (body : Nat → Nat → Cursor → Cursor → m (List ω × Cursor × Cursor))
    (tail : Cursor → Cursor → Nat → m (List ω)) {head : m (List ω)} (hs : On bus P src)
    (hd : On bus P dst)
    (hsl : src.offset < src.window.endOffset) (hdl : dst.offset < dst.window.endOffset)
    (hsn : src.offset + len ≤ limit src) (hdn : dst.offset + len ≤ limit dst)
    (hsd : dst.offset % l1CacheBytes = src.offset % l1CacheBytes)
    (hh : L.Holds head (Makes (copies dst src (headLen src.offset len))))
    (hb : ∀ {src dst n},Room bus P l1CacheBytes src n → Room bus P l1CacheBytes dst n →
      l1CacheBytes ∣ n → ∀ tailLen,L.Holds (body tailLen n src dst) (Copied Makes bus P src dst n))
    (ht : ∀ {src dst n},Room bus P l1CacheBytes src n → Room bus P l1CacheBytes dst n →
      n < l1CacheBytes → L.Holds (tail src dst n) (Makes (copies dst src n))) :
    L.Holds (do
      let headLen := headLen src.offset len
      let head ← head
      let tailLen := (len - headLen) % l1CacheBytes
      let body ← body tailLen (len - headLen - tailLen) (src.advance src.iter headLen)
        (dst.advance dst.iter headLen)
      let tail ← tail body.2.1 body.2.2 tailLen
      return head ++ body.1 ++ tail) (Makes (copies dst src len)) := by
  have hle := headLen_le src.offset len
  have hln := headLen_in_line src.offset len
  have hl : len - headLen src.offset len ≠ 0 →
      l1CacheBytes ∣ src.offset + headLen src.offset len ∧ l1CacheBytes ∣ dst.offset +
      headLen src.offset len :=
    fun hne => ⟨headLen_aligned hne rfl,headLen_aligned hne hsd⟩
  refine L.bind hh ?_
  intro head hh
  generalize headLen src.offset len = n at *
  obtain ⟨hs1,hsa1⟩ := hs.behind hsl hln
  obtain ⟨hd1,hda1⟩ := hd.behind hdl (hsd ▸ hln)
  generalize hr : len - n = remaining at *
  obtain ⟨hmd,hml,hdm⟩ := tail_lines remaining
  refine L.bind (hb ⟨hs1,hsa1.fits hsn (by omega),fun hne => (hl (by omega)).1⟩
    ⟨hd1,hda1.fits hdn (by omega),fun hne => (hl (by omega)).2⟩ hdm _) ?_
  intro body hbd
  have hs2 := hbd.src_ahead
  have hd2 := hbd.dst_ahead
  have h0 : remaining % l1CacheBytes ≠ 0 → remaining ≠ 0 := fun hne h0 => hne (by rw [h0]; rfl)
  refine L.bind (ht
    ⟨hbd.on_src,(hsa1.trans hs2 rfl).fits hsn (by omega),fun hne => hs2.offset ▸ Nat.dvd_add
    (hl (h0 hne)).1 hdm⟩
    ⟨hbd.on_dst,(hda1.trans hd2 rfl).fits hdn (by omega),fun hne => hd2.offset ▸ Nat.dvd_add
    (hl (h0 hne)).2 hdm⟩
    hmd) ?_
  intro tail htl
  have hrs := copies_add hd2 hs2 (remaining % l1CacheBytes)
  have hall := copies_add hda1 hsa1 remaining
  rw [Nat.sub_add_cancel hml] at hrs
  rw [show n + remaining = len by omega,hrs,← append_assoc] at hall
  rw [hall]
  exact L.pure (hm.append (hm.append hh hbd.makes) htl)

include hm in
theorem unaligned_parts (body : Nat → Nat → Cursor → Nat → Nat → m (List ω × Cursor × Nat))
    (tail : Cursor → Nat → Nat → m (List ω)) (Known : Nat → Nat → Nat → Prop) {head : m (List ω)}
    {next : List ω → List ω × Cursor × Nat → List ω → m (List ω)}
    (hc : On bus P c) (hlt : c.offset < c.window.endOffset) (hcn : c.offset + len ≤ limit c)
    (hh : L.Holds head (Makes (bufferMoves toTemp (bytes c) (virt temp) (headLen c.offset len))))
    (hk : ∀ n,n = headLen c.offset len → Known (temp + n) (phys + n)
    (len - n - (len - n) % l1CacheBytes))
    (hb : ∀ {c temp phys n},Room bus P l1CacheBytes c n → l1CacheBytes ∣ n → Known temp phys n →
      ∀ tailLen,L.Holds (body tailLen n c temp phys) (Passed Makes bus P toTemp tailLen c temp n))
    (ht : ∀ {c n},Room bus P l1CacheBytes c n → n < l1CacheBytes →
      ∀ temp,L.Holds (tail c temp n) (Makes (bufferMoves toTemp (bytes c) (virt temp) n)))
    (hx : ∀ {head body tail},Makes (bufferMoves toTemp (bytes c) (virt temp) len)
      (head ++ body.1 ++ tail) → L.Holds (next head body tail) post) :
    L.Holds (do
      let headLen := headLen c.offset len
      let head ← head
      let tailLen := (len - headLen) % l1CacheBytes
      let body ← body tailLen (len - headLen - tailLen) (c.advance c.iter headLen) (temp + headLen)
        (phys + headLen)
      let tail ← tail body.2.1 body.2.2 tailLen
      next head body tail) post := by
  have hle := headLen_le c.offset len
  have hln := headLen_in_line c.offset len
  have hl : len - headLen c.offset len ≠ 0 → l1CacheBytes ∣ c.offset + headLen c.offset len :=
    fun hne => headLen_aligned hne rfl
  have hkn := hk _ rfl
  refine L.bind hh ?_
  intro head hh
  generalize headLen c.offset len = n at *
  obtain ⟨hc1,hca1⟩ := hc.behind hlt hln
  generalize hr : len - n = remaining at *
  obtain ⟨hmd,hml,hdm⟩ := tail_lines remaining
  refine L.bind (hb ⟨hc1,hca1.fits hcn (by omega),fun hne => hl (by omega)⟩ hdm hkn _) ?_
  intro body hbd
  have hc2 := hbd.ahead
  refine L.bind (ht ⟨hbd.on,(hca1.trans hc2 rfl).fits hcn (by omega),?_⟩ hmd _) ?_
  · intro hne
    rw [hc2.offset]
    exact Nat.dvd_add (hl (fun h0 => hne (by rw [h0]; rfl))) hdm
  intro tail htl
  refine hx ?_
  have hp : bufferMoves toTemp (bytes body.2.1) (virt body.2.2) (remaining % l1CacheBytes) =
      bufferMoves toTemp (bytes body.2.1) (virt (temp + n + (remaining - remaining % l1CacheBytes)))
        (remaining % l1CacheBytes) := by
    by_cases h0 : remaining % l1CacheBytes = 0
    · rw [h0,buffer_moves_zero,buffer_moves_zero]
    · rw [hbd.place h0]
  have hrs := buffer_moves_ahead toTemp hc2 (temp + n) (remaining % l1CacheBytes)
  have hall := buffer_moves_ahead toTemp hca1 temp remaining
  rw [Nat.sub_add_cancel hml,← hp] at hrs
  rw [show n + remaining = len by omega,hrs,← append_assoc] at hall
  rw [hall]
  exact hm.append (hm.append hh hbd.makes) htl

end

end Mpss.Proofs.CopyLoops
