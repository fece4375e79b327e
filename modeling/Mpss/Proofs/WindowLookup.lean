import Mpss.Proofs.WindowQuery
import Mpss.Scif.TempCache

namespace Mpss.Proofs.WindowLookup
open Library.Segments Scif.Window Scif.TempCache WindowQuery List

variable {req : ScifRmaReq} {offset : Int} {left : Nat}

abbrev Holds (w : ScifWindow) (x : Int) : Prop := Contains ScifWindow.offset ScifWindow.endOffset w x

/-- Every byte of the range lies in a window of the list that grants the access. -/
abbrev Granted (prot : Nat) (ws : List ScifWindow) (first last : Int) : Prop :=
  Covers ScifWindow.offset ScifWindow.endOffset (ProtOk prot) ws first last

/-- What a request of each type asks of the list. -/
def Wanted (type : WindowType) (prot : Nat) (ws : List ScifWindow) (first last : Int) : Prop :=
  match type with
  | .part => Granted prot ws first last
  | .single => ∃ w ∈ ws,ProtOk prot w ∧ w.offset ≤ first ∧ last ≤ w.endOffset
  | .full => Granted prot ws first last ∧ ∃ w ∈ ws,w.endOffset = last

theorem Wanted.holds_first (h : Wanted type prot ws first last) (hlt : first < last) :
    ∃ w ∈ ws,ProtOk prot w ∧ Holds w first := by
  cases type with
  | part => exact h first le_rfl hlt
  | single =>
    obtain ⟨w,hw,hp,hlo,hhi⟩ := h
    exact ⟨w,hw,hp,hlo,hlt.trans_le hhi⟩
  | full => exact h.1 first le_rfl hlt

theorem wanted_skip (he : w.endOffset ≤ first) (hlt : first < last) :
    Wanted type prot (w :: ws) first last ↔ Wanted type prot ws first last := by
  have hg : Granted prot (w :: ws) first last ↔ Granted prot ws first last := by
    refine ⟨fun h x hx hl => ?_,fun h x hx hl => ?_⟩
    · obtain ⟨v,hv,hp,hc⟩ := h x hx hl
      rcases mem_cons.mp hv with rfl | hv
      · have hin := hc.2
        omega
      · exact ⟨v,hv,hp,hc⟩
    · obtain ⟨v,hv,hp,hc⟩ := h x hx hl
      exact ⟨v,.tail _ hv,hp,hc⟩
  cases type with
  | part => exact hg
  | single =>
    simp only [Wanted,mem_cons,exists_eq_or_imp]
    refine or_iff_right ?_
    rintro ⟨-,-,hhi⟩
    omega
  | full =>
    simp only [Wanted,mem_cons,exists_eq_or_imp,hg]
    refine and_congr_right fun _ => or_iff_right ?_
    omega

section
variable (ho : Ordered (w :: ws)) (hin : Holds w first) (hp : ProtOk prot w)
include ho hin hp

theorem wanted_rest (hln : w.endOffset < last)
    (ht : type ≠ .single) :
    Wanted type prot (w :: ws) first last ↔ Wanted type prot ws w.endOffset last := by
  have hg : Granted prot (w :: ws) first last ↔ Granted prot ws w.endOffset last := by
    refine ⟨fun h x hx hl => ?_,fun h x hx hl => ?_⟩
    · obtain ⟨v,hv,hpv,hc⟩ := h x ((Int.le_of_lt hin.2).trans hx) hl
      rcases mem_cons.mp hv with rfl | hv
      · exact absurd hc.2 (not_lt.mpr hx)
      · exact ⟨v,hv,hpv,hc⟩
    · by_cases hxw : x < w.endOffset
      · exact ⟨w,mem_cons_self,hp,hin.1.trans hx,hxw⟩
      · obtain ⟨v,hv,hpv,hc⟩ := h x (not_lt.mp hxw) hl
        exact ⟨v,.tail _ hv,hpv,hc⟩
  cases type with
  | part => exact hg
  | single => exact absurd rfl ht
  | full =>
    simp only [Wanted,mem_cons,exists_eq_or_imp,hg]
    refine and_congr_right fun _ => or_iff_right ?_
    omega

theorem wanted_inside (hls : last ≤ w.endOffset) (hlt : first < last) :
    Wanted type prot (w :: ws) first last ↔ (type = .full → w.endOffset = last) := by
  have hg : Granted prot (w :: ws) first last := by
    intro x hx hl
    exact ⟨w,mem_cons_self,hp,hin.1.trans hx,hl.trans_le hls⟩
  cases type with
  | part => exact ⟨nofun,fun _ => hg⟩
  | single => exact ⟨nofun,fun _ => ⟨w,mem_cons_self,hp,hin.1,hls⟩⟩
  | full =>
    refine ⟨?_,fun h => ⟨hg,w,mem_cons_self,h rfl⟩⟩
    rintro ⟨-,v,hv,he⟩ -
    have hn := ho.1 v hv
    have hlb : Holds w (last - 1) := ⟨by have := hin.1; omega,by omega⟩
    by_cases hlw : v.offset ≤ last - 1
    · have hs := ho.unique mem_cons_self hv hlb ⟨hlw,by omega⟩
      rw [hs]
      exact he
    · omega

end

/-- The loop succeeds exactly where the list has what is asked for. -/
theorem query_iff (ho : Ordered ws) (hl : 0 < left) (out : Option ScifWindow) :
    (∃ r,queryFrom req ws offset left out = .ok r) ↔ Wanted req.type req.prot ws offset
    (offset + left) := by
  have hlt : offset < offset + left := by omega
  induction ws generalizing offset left out with
  | nil =>
    refine iff_of_false (by simp [queryFrom]) fun h => ?_
    obtain ⟨w,hw,-⟩ := h.holds_first hlt
    cases hw
  | cons w ws ih =>
    by_cases hb : offset < w.offset
    · rw [queryFrom,if_pos hb]
      refine iff_of_false (by simp) fun h => ?_
      obtain ⟨v,hv,-,hc⟩ := h.holds_first hlt
      have hlw := hc.1
      rcases mem_cons.mp hv with rfl | hv
      · omega
      · have hnx := ho.after hv
        have hn := ho.1 w mem_cons_self
        omega
    by_cases he : w.endOffset ≤ offset
    · rw [queryFrom,if_neg hb,if_pos he,wanted_skip he hlt]
      exact ih ho.tail hl out hlt
    have hin : Holds w offset := ⟨not_lt.mp hb,not_le.mp he⟩
    by_cases hp : ProtOk req.prot w
    · by_cases hs : offset + left ≤ w.endOffset
      · rw [query_ends hin hp hs,wanted_inside ho hin hp hs hlt]
        split
        · rename_i hf
          exact iff_of_true ⟨_,rfl⟩ fun ht => (hf ht).symm
        · rename_i hf
          exact iff_of_false (by simp) fun h => hf fun ht => (h ht).symm
      rw [query_through hin hp (by omega)]
      by_cases ht : req.type = .single
      · rw [if_pos ht]
        refine iff_of_false (by simp) ?_
        rw [ht]
        rintro ⟨v,hv,-,hlw,hh⟩
        have hsm := ho.unique mem_cons_self hv hin ⟨hlw,by omega⟩
        rw [← hsm] at hh
        exact hs hh
      · have hls : offset + left = w.endOffset + (offset + left - w.endOffset).toNat := by omega
        rw [if_neg ht,wanted_rest ho hin hp (by omega) ht]
        nth_rw 2 [hls]
        exact ih ho.tail (by omega) _ (by omega)
    · have hlc : w.prot &&& req.prot ≠ req.prot := hp
      rw [queryFrom,if_neg hb,if_neg he,if_pos hlc]
      refine iff_of_false ?_ ?_
      · rintro ⟨r,hr⟩
        cases hr
      · intro h
        obtain ⟨v,hv,hpv,hc⟩ := h.holds_first hlt
        rw [← ho.unique mem_cons_self hv hin hc] at hpv
        exact hp hpv

theorem query_eperm (hl : 0 < left) (h : queryFrom req ws offset left out = .error (-eperm)) :
    ∃ w ∈ ws,¬ ProtOk req.prot w ∧ w.offset < offset + left ∧ offset < w.endOffset := by
  induction ws generalizing offset left out with
  | nil => cases h
  | cons w ws ih =>
    rw [queryFrom] at h
    split at h
    · cases h
    split at h
    · obtain ⟨v,hv,hr⟩ := ih hl h
      exact ⟨v,.tail _ hv,hr⟩
    split at h
    · rename_i hp
      exact ⟨w,mem_cons_self,hp,by omega,by omega⟩
    simp only at h
    split at h
    · split at h
      · cases h
      · cases h
      · split at h
        all_goals cases h
    rename_i hm
    split at h
    · cases h
    · obtain ⟨v,hv,hp,hlw,hh⟩ := ih (Nat.pos_of_ne_zero hm) h
      exact ⟨v,.tail _ hv,hp,by omega,by omega⟩

/-- A list as `scif_insert_window` keeps it, of windows whose offsets are `s64` values. -/
structure Listed (ws : List ScifWindow) : Prop where
  ordered : Ordered ws
  words : ∀ w ∈ ws,-2 ^ 63 ≤ w.offset ∧ w.endOffset < 2 ^ 63

theorem s64_of_range (hl : -2 ^ 63 ≤ n) (hh : n < 2 ^ 63) : s64 n = n := by
  unfold s64
  omega

theorem u64_of_range (hl : 0 ≤ n) (hh : n < 2 ^ 64) : u64 n = n.toNat := by
  unfold u64
  omega

theorem endWord_eq (hl : -2 ^ 63 ≤ w.endOffset) (hh : w.endOffset < 2 ^ 63) :
    endWord w = w.endOffset := by
  have hw : w.nrPages * 2 ^ pageShift = w.endOffset - w.offset := by
    unfold ScifWindow.endOffset pageSize pageShift
    omega
  unfold endWord s64
  omega

/-- No step of the loop leaves the range of its types. -/
theorem queryWords_eq (hl : Listed ws) (hlw : -2 ^ 63 ≤ offset) (hh : offset + left < 2 ^ 63) :
    queryWords req ws offset left out = queryFrom req ws offset left out := by
  induction ws generalizing offset left out with
  | nil => rfl
  | cons w ws ih =>
    obtain ⟨hwl,hw⟩ := hl.words w mem_cons_self
    have hn := hl.ordered.1 w mem_cons_self
    have ht : Listed ws := ⟨hl.ordered.tail,(forall_mem_cons.mp hl.words).2⟩
    have he : endWord w = w.endOffset := endWord_eq (by omega) hw
    rw [queryWords,queryFrom,he]
    split
    · rfl
    split
    · exact ih ht hlw hh
    split
    · rfl
    have hd : u64 (w.endOffset - offset) = (w.endOffset - offset).toNat :=
      u64_of_range (by omega) (by omega)
    have hnx : s64 (offset + (min (w.endOffset - offset).toNat left : Nat)) =
        offset + (min (w.endOffset - offset).toNat left : Nat) := s64_of_range (by omega) (by omega)
    simp only [hd,hnx]
    split
    · rfl
    split
    · rfl
    · exact ih ht (by omega) (by omega)

/-- The lookup finds what is asked for exactly where the list has it, in the window that holds the
first byte. -/
theorem window_lookup_exact (hlist : Listed ws) (hn : 0 < req.nrBytes) (hlow : -2 ^ 63 ≤ req.offset)
    (hend : req.offset + req.nrBytes < 2 ^ 63) :
    ((∃ r,scifQueryWords ws req = .ok r) ↔
        Wanted req.type req.prot ws req.offset (req.offset + req.nrBytes)) ∧
      (∀ r,scifQueryWords ws req = .ok r → ∃ w ∈ ws,r = some w ∧ Holds w req.offset) ∧
      (scifQueryWords ws req = .error (-eperm) →
        ∃ w ∈ ws,¬ ProtOk req.prot w ∧ w.offset < req.offset + req.nrBytes ∧
        req.offset < w.endOffset) := by
  have hwr : scifQueryWords ws req = queryFrom req ws req.offset req.nrBytes none := by
    rw [scifQueryWords,if_neg (ne_of_gt hn)]
    exact queryWords_eq hlist hlow hend
  rw [hwr]
  refine ⟨query_iff hlist.ordered hn none,?_,query_eperm hn⟩
  intro r hr
  obtain ⟨w,pre,post,hw,hf⟩ := query_first hlist.ordered hr
  refine ⟨w,?_,hw,hf.reaches.1⟩
  rw [hf.list]
  exact mem_append_right _ mem_cons_self

def twoWindows : List ScifWindow := [⟨0,0x1000,1,3,0,.notInitiated⟩,⟨1,0x2000,2,1,0,.notInitiated⟩]

def readAcross : ScifRmaReq := ⟨0x1800,0x2800,1,.full⟩

theorem read_across_windows :
    scifQueryWords twoWindows readAcross = .ok twoWindows.head? ∧
      Wanted .full 1 twoWindows 0x1800 (0x1800 + (0x2800 : Nat)) := by
  have hl : Listed twoWindows := by
    refine ⟨⟨?_,?_⟩,?_⟩
    all_goals decide
  obtain ⟨hi,-,-⟩ := window_lookup_exact hl (by decide : 0 < readAcross.nrBytes)
    (by decide) (by decide)
  exact ⟨rfl,hi.mp ⟨_,rfl⟩⟩

end Mpss.Proofs.WindowLookup
