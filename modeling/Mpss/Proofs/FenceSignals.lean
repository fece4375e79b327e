import Mpss.Proofs.WindowRun

namespace Mpss.Proofs.FenceSignals
open Scif.Transfer Scif.Copy WindowRun List
open Scif.Window (einval)

theorem accepted_flags (h : scifFenceSignal l loff roff flags localErr remoteErr = 0) :
    (flags &&& scifFenceInitSelf ≠ 0 ↔ flags &&& scifFenceInitPeer = 0) ∧
      (flags &&& scifSignalLocal ≠ 0 ∨ flags &&& scifSignalRemote ≠ 0) := by
  unfold scifFenceSignal at h
  by_cases hs : flags &&& scifFenceInitSelf = 0 <;> by_cases hp : flags &&& scifFenceInitPeer = 0 <;>
    by_cases hl : flags &&& scifSignalLocal = 0 <;> by_cases hr : flags &&& scifSignalRemote = 0 <;>
    simp [hs,hp,hl,hr,einval] at h ⊢

/-- Each value is written at its offset on its side if its flag is set, and nothing else. -/
def Sided (loff : Int) (lval : Nat) (roff : Int) (rval flags : Nat) : Prop :=
  ∀ s,s ∈ fenceSignals loff lval roff rval flags ↔
    s = ⟨.own,loff,lval⟩ ∧ flags &&& scifSignalLocal ≠ 0 ∨ s = ⟨.remote,roff,rval⟩ ∧
    flags &&& scifSignalRemote ≠ 0

/-- Through the peer the two signals change their flags, which does not matter for both. -/
theorem signals_sided_iff (h : scifFenceSignal l loff roff flags localErr remoteErr = 0)
    (lval rval : Nat) : Sided loff lval roff rval flags ↔ flags &&& scifFenceInitSelf ≠ 0 ∨
      flags &&& scifSignalLocal ≠ 0 ∧ flags &&& scifSignalRemote ≠ 0 := by
  obtain ⟨hi,hs⟩ := accepted_flags h
  unfold Sided fenceSignals
  by_cases hp : flags &&& scifFenceInitPeer = 0
  · rw [hi]
    by_cases hl : flags &&& scifSignalLocal = 0 <;> by_cases hr : flags &&& scifSignalRemote = 0 <;>
      simp [hp,hl,hr]
  by_cases hl : flags &&& scifSignalLocal = 0
  · by_cases hr : flags &&& scifSignalRemote = 0
    · simp [hl,hr] at hs
    · refine iff_of_false (fun hw => ?_) (by simp [hi,hp,hl])
      simpa [hp,hl,hr] using hw ⟨.own,loff,lval⟩
  by_cases hr : flags &&& scifSignalRemote = 0
  · refine iff_of_false (fun hw => ?_) (by simp [hi,hp,hr])
    simpa [hp,hl,hr] using hw ⟨.own,loff,lval⟩
  · refine iff_of_true (fun s => ?_) (.inr ⟨hl,hr⟩)
    simp [hp,hl,hr,or_comm]

def pageLists : Lists :=
  let l : List Scif.Window.ScifWindow := [⟨0,0,1,3,0,.notInitiated⟩]
  ⟨l,l,l,l⟩

theorem own_signal_sided : Sided 8 1 16 2 (scifFenceInitSelf + scifSignalLocal) :=
  (signals_sided_iff
    (by decide : scifFenceSignal pageLists 8 16 (scifFenceInitSelf + scifSignalLocal) 0 0 = 0)
    1 2).mpr (by decide)

/-- Only the local signal is asked for, and the peer writes the value for its own side. -/
theorem peer_signal_swapped :
    scifFenceSignal pageLists 8 16 (scifFenceInitPeer + scifSignalLocal) 0 0 = 0 ∧
      fenceSignals 8 1 16 2 (scifFenceInitPeer + scifSignalLocal) = [⟨.remote,16,2⟩] ∧
      ¬ Sided 8 1 16 2 (scifFenceInitPeer + scifSignalLocal) := by
  refine ⟨by decide,by decide,?_⟩
  intro h
  exact absurd ((h ⟨.own,8,1⟩).mpr (by decide)) (by decide)

variable (loopback : Bool)

/-- Where a signal's value goes: through the pinned pages on loopback, else by the address that
`scif_off_to_dma_addr` finds. -/
def signalAddr (w : Window) (off : Nat) : Option Nat :=
  if loopback then w.pages[(off - w.offset) / pageSize]?.map (· + off % pageSize)
  else (scifOffToDmaAddr w off (scifInitWindowIter w)).map (·.addr)

/-- The addresses that `scif_prog_signal` writes the eight bytes of its value to. -/
def signalBytes (w : Window) (off : Nat) : Option (List Nat) :=
  (signalAddr loopback w off).map (fun a => (List.range 8).map (a + ·))

def Addressed (w : Window) (off : Nat) : Prop :=
  ∃ as,signalBytes loopback w off = some as ∧ ∀ k < 8,signalAddr loopback w (off + k) = as[k]?

theorem signal_addr (h : Sound id w) (ho : w.offset ≤ off) (hlt : off < w.endOffset)
    (loopback : Bool) : signalAddr loopback w off = some (cell w off) := by
  have hi : (off - w.offset) / pageSize < w.pages.length := by
    rw [h.pages]
    unfold Window.endOffset pageSize at *
    omega
  cases loopback with
  | true => simp [signalAddr,cell,cellIn,getD,getElem?_eq_getElem hi]
  | false =>
    obtain ⟨d,hd,hf⟩ := h.off_to_dma (h.valid_init ho) ho hlt
    have hc := hf.cells 0 hf.pos
    simpa [signalAddr,hd] using hc

/-- The eight bytes lie in one page, or the next page follows in memory as well. -/
theorem signal_addressed_iff (loopback : Bool) (h : Sound id w) (ho : w.offset ≤ off)
    (hlt : off + 8 ≤ w.endOffset) : Addressed loopback w off ↔ off % pageSize + 8 ≤ pageSize ∨
      w.pages.getD ((off - w.offset) / pageSize + 1) 0 =
        w.pages.getD ((off - w.offset) / pageSize) 0 + pageSize := by
  have hal := h.aligned
  have hk : Addressed loopback w off ↔ ∀ k < 8,cell w (off + k) = cell w off + k := by
    have ha := signal_addr h ho (by omega) loopback
    constructor
    · rintro ⟨as,hs,hb⟩ k hk
      rw [signalBytes,ha] at hs
      cases hs
      have := hb k hk
      rw [signal_addr h (by omega) (by omega)] at this
      simpa [hk] using this
    · intro hb
      refine ⟨_,by rw [signalBytes,ha]; rfl,?_⟩
      intro k hk
      rw [signal_addr h (by omega) (by omega),hb k hk]
      simp [hk]
  rw [hk]
  unfold cell cellIn
  by_cases hp : off % pageSize + 8 ≤ pageSize
  · refine iff_of_true (fun k hk => ?_) (.inl hp)
    have hi : (off + k - w.offset) / pageSize = (off - w.offset) / pageSize := by
      unfold pageSize at *
      omega
    rw [hi]
    unfold pageSize at *
    omega
  · have hi : ∀ k < 8,(off + k - w.offset) / pageSize = (off - w.offset) / pageSize ∧
        (off + k) % pageSize = off % pageSize + k ∨
        (off + k - w.offset) / pageSize = (off - w.offset) / pageSize + 1 ∧
          (off + k) % pageSize + pageSize = off % pageSize + k := by
      intro k hk
      unfold pageSize at *
      omega
    refine ⟨fun hb => Or.inr ?_,?_⟩
    · have := hb 7 (by decide)
      rcases hi 7 (by decide) with ⟨he,hm⟩ | ⟨he,hm⟩
      · unfold pageSize at *
        omega
      · rw [he] at this
        omega
    · rintro (hq | hq) k hk
      · exact absurd hq hp
      · rcases hi k hk with ⟨he,hm⟩ | ⟨he,hm⟩
        · rw [he]
          omega
        · rw [he,hq]
          omega

def twoPages : Window := ⟨.self,0,2,[0x5000,0x8000],[⟨0x5000,1⟩,⟨0x8000,1⟩]⟩

theorem two_pages_sound : Sound id twoPages := by
  refine ⟨rfl,rfl,one_pos,rfl,by decide,?_,one_pos,rfl,by decide,?_,rfl⟩ <;>
  · intro i hi b _
    obtain rfl : i = 0 := Nat.lt_one_iff.mp hi
    simp [twoPages]

theorem first_word_addressed : Addressed false twoPages 8 :=
  (signal_addressed_iff false two_pages_sound (by decide) (by decide)).mpr (by decide)

/-- The last four bytes of the value go behind the first page and not to the second one. -/
theorem split_signal_misplaced :
    signalBytes false twoPages 4092 = some ((List.range 8).map (0x5FFC + ·)) ∧
      signalAddr false twoPages 4096 = some 0x8000 ∧ ¬ Addressed false twoPages 4092 := by
  refine ⟨by decide,by decide,?_⟩
  rintro ⟨as,hs,hb⟩
  cases (show some ((range 8).map (0x5FFC + ·)) = some as from hs)
  exact absurd (hb 4 (by decide)) (by decide)

end Mpss.Proofs.FenceSignals
