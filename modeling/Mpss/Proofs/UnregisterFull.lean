import Mpss.Micscif.RmaList
import Mpss.Proofs.UnregisterWhole
import Mpss.Proofs.WindowLookup

namespace Mpss.Proofs.UnregisterFull
open Scif.Window Micscif.RmaList WindowQuery WindowLookup UnregisterWhole List

variable {w : ScifWindow}

/-- A registration list of pinned windows, whose pages are counted in an `int`. -/
structure Registered (ws : List ScifWindow) : Prop where
  ordered : Ordered ws
  words : ∀ w ∈ ws,0 ≤ w.offset ∧ w.endOffset < 2 ^ 63 ∧ w.nrPages < 2 ^ 31

/-- The range is the union of the windows that it meets. -/
def Union (ws : List ScifWindow) (first last : Int) : Prop :=
  Granted 0 ws first last ∧ ∀ w ∈ ws,w.offset < last → first < w.endOffset → within first last w = true

def inside (first last : Int) (ws : List ScifWindow) : List Nat :=
  (ws.filter (within first last)).map ScifWindow.id

/-- An error and no window, or all windows of a range made up of whole ones. -/
def OnlyWhole (ws : List ScifWindow) (first last : Int) (r : Option (Int × List Nat)) : Prop :=
  ∃ err started,r = some (err,started) ∧ (¬ Union ws first last → err ≠ 0 ∧ started = []) ∧
    (Union ws first last → started = inside first last ws)

theorem union_iff (ho : Ordered ws) (hlt : offset < last) :
    Union ws offset last ↔ Wanted .full 0 ws offset last ∧ ∃ w ∈ ws,w.offset = offset := by
  constructor
  · rintro ⟨hg,hin⟩
    obtain ⟨v,hv,-,hlo,hhi⟩ := hg (last - 1) (by omega) (by omega)
    obtain ⟨u,hu,-,hul,huh⟩ := hg offset (by omega) hlt
    have hvn := of_decide_eq_true (hin v hv (by omega) (by omega))
    have hun := of_decide_eq_true (hin u hu (by omega) (by omega))
    exact ⟨⟨hg,v,hv,by omega⟩,u,hu,by omega⟩
  · rintro ⟨⟨hg,v,hv,he⟩,u,hu,hs⟩
    refine ⟨hg,fun w hw hlo hhi => decide_eq_true ⟨?_,?_⟩⟩
    · by_contra hcut
      have := ho.1 u hu
      have hsm : w = u := ho.unique hw hu (x := offset) ⟨by omega,hhi⟩ ⟨by omega,by omega⟩
      rw [hsm] at hcut
      omega
    · by_contra hcut
      have := ho.1 v hv
      have hsm : w = v := ho.unique hw hv (x := last - 1) ⟨by omega,by omega⟩ ⟨by omega,by omega⟩
      rw [hsm] at hcut
      omega

theorem endOffset_eq (w : ScifWindow) : w.endOffset = w.offset + w.nrPages * 4096 := rfl

theorem toInt32_of_range (hl : -2 ^ 31 ≤ n) (hh : n < 2 ^ 31) : toInt32 n = n := by
  unfold toInt32
  omega

theorem inside_cons (ho : Ordered (w :: v :: ws)) (hn : v.offset = w.endOffset)
    (hle : w.endOffset ≤ last) :
    inside w.offset last (w :: v :: ws) = w.id :: inside v.offset last (v :: ws) := by
  have hw : within w.offset last w = true := decide_eq_true ⟨le_rfl,hle⟩
  have hp := ho.1 w mem_cons_self
  have hs : ∀ u ∈ v :: ws,within w.offset last u = within v.offset last u := by
    intro u hu
    have ha := ho.after hu
    apply decide_eq_decide.mpr
    omega
  rw [inside,filter_cons_of_pos hw,filter_congr hs]
  rfl

section
variable (ho : Ordered (w :: ws))
include ho

theorem head_end (he : ∃ v ∈ w :: ws,v.endOffset = last) : w.endOffset ≤ last := by
  obtain ⟨v,hv,hl⟩ := he
  rcases mem_cons.mp hv with rfl | hv
  · omega
  · have ha := ho.after hv
    have hp := ho.tail.1 v hv
    omega

theorem inside_last : inside w.offset w.endOffset (w :: ws) = [w.id] := by
  have hw : within w.offset w.endOffset w = true := decide_eq_true ⟨le_rfl,le_rfl⟩
  have hn : ws.filter (within w.offset w.endOffset) = [] := by
    refine filter_eq_nil_iff.mpr fun v hv hin => ?_
    have hle := (of_decide_eq_true hin).2
    have ha := ho.after hv
    have hp := ho.tail.1 v hv
    omega
  rw [inside,filter_cons_of_pos hw,hn]
  rfl

theorem walk_eq (hp : w.nrPages < 2 ^ 31) :
    micscifRmaListUnregister unregisterWindow (w :: ws) w.offset n =
      if unregisterWindow w.id ≠ 0 then some (unregisterWindow w.id,[w.id])
      else if n ≤ w.nrPages then some (0,[w.id])
      else (micscifRmaListUnregister unregisterWindow ws w.endOffset (n - w.nrPages)).map
        (fun r => (r.1,w.id :: r.2)) := by
  have hps := ho.1 w mem_cons_self
  rw [endOffset_eq] at hps
  have hl : toInt32 ((w.endOffset - w.offset) / pageSize) = w.nrPages := by
    rw [endOffset_eq,pageSize,toInt32_of_range] <;> omega
  rw [micscifRmaListUnregister,hl]
  split
  · rfl
  by_cases hn : n ≤ w.nrPages
  · rw [if_pos (by omega),if_pos hn]
  · have hm : min w.nrPages n = w.nrPages := by omega
    rw [if_neg (by omega),if_neg hn,hm]
    rfl

theorem walk_last (hpg : w.nrPages < 2 ^ 31) (hp : w.offset + p * 4096 = w.endOffset)
    (hn : n = p ∨ 2 ^ 31 ≤ p ∧ n + 2 ^ 32 ≤ p) :
    ∃ r,micscifRmaListUnregister unregisterWindow (w :: ws) w.offset n = some r ∧
      (r.2 = inside w.offset w.endOffset (w :: ws) ↔
        n = p ∧ ∀ v ∈ w :: ws,v.endOffset < w.endOffset → unregisterWindow v.id = 0) := by
  have hal : ∀ v ∈ w :: ws,v.endOffset < w.endOffset → unregisterWindow v.id = 0 := by
    intro v hv hlt
    rcases mem_cons.mp hv with rfl | hv
    · omega
    · have ha := ho.after hv
      have hps := ho.tail.1 v hv
      omega
  rw [endOffset_eq] at hp
  rw [walk_eq ho hpg,if_pos (by omega : n ≤ w.nrPages),inside_last ho]
  split <;> exact ⟨_,rfl,fun _ => ⟨by omega,hal⟩,fun _ => rfl⟩

/-- The walk over a range of whole windows, with `n` for its pages `p` as an `int`: all are
unregistered if nothing was cut off and each lets the next follow. -/
theorem walk_inside (hpg : ∀ v ∈ w :: ws,v.nrPages < 2 ^ 31)
    (hs : Reaches 0 (w :: ws) w.offset last) (hen : ∃ v ∈ w :: ws,v.endOffset = last)
    (hp : w.offset + p * 4096 = last) (hn : n = p ∨ 2 ^ 31 ≤ p ∧ n + 2 ^ 32 ≤ p) :
    ∃ r,micscifRmaListUnregister unregisterWindow (w :: ws) w.offset n = some r ∧
      (r.2 = inside w.offset last (w :: ws) ↔
        n = p ∧ ∀ v ∈ w :: ws,v.endOffset < last → unregisterWindow v.id = 0) := by
  induction ws generalizing w n p with
  | nil =>
    obtain ⟨v,hv,rfl⟩ := hen
    cases mem_singleton.mp hv
    exact walk_last ho (hpg w mem_cons_self) hp hn
  | cons v ws ih =>
    have hpw := hpg w mem_cons_self
    obtain ⟨hin,-,hls | ⟨hlt,hs⟩⟩ := hs
    · cases le_antisymm hls (head_end ho hen)
      exact walk_last ho hpw hp hn
    have hnx : v.offset = w.endOffset := le_antisymm hs.1.1 (ho.after mem_cons_self)
    have hl : ∃ u ∈ v :: ws,u.endOffset = last := by
      obtain ⟨u,hu,hul⟩ := hen
      rcases mem_cons.mp hu with rfl | hu
      · omega
      · exact ⟨u,hu,hul⟩
    have hm : inside v.offset last (v :: ws) ≠ [] := by
      have hv : within v.offset last v = true := decide_eq_true ⟨le_rfl,head_end ho.tail hl⟩
      rw [inside,filter_cons_of_pos hv]
      exact cons_ne_nil _ _
    have hsz := endOffset_eq w
    rw [← hnx] at hs
    rw [walk_eq ho hpw,inside_cons ho hnx hlt.le]
    split
    · rename_i hf
      exact ⟨_,rfl,fun he => absurd (cons.inj he).2.symm hm,fun h => absurd
        (h.2 w mem_cons_self hlt) hf⟩
    rename_i hg
    split
    · exact ⟨_,rfl,fun he => absurd (cons.inj he).2.symm hm,fun h => by omega⟩
    obtain ⟨r,hr,hi⟩ := ih (p := p - w.nrPages) (n := n - w.nrPages) ho.tail
      (forall_mem_cons.mp hpg).2 hs hl (by omega) (by omega)
    rw [hnx] at hr
    rw [hr]
    refine ⟨_,rfl,?_⟩
    rw [cons_inj_right,hi]
    exact and_congr (by omega) ⟨fun h => forall_mem_cons.mpr ⟨fun _ => not_not.mp hg,h⟩,
      fun h => (forall_mem_cons.mp h).2⟩

end

/-- A range covered up to the end of a window begins at the start of one, its pages fit into an
`int`, and no window but the last fails to unregister. -/
def Careful (ws : List ScifWindow) (offset : Int) (len : Nat) (unregisterWindow : Nat → Int) : Prop :=
  Wanted .full 0 ws offset (offset + len) → (∃ w ∈ ws,w.offset = offset) ∧ len / 4096 < 2 ^ 31 ∧
    ∀ w ∈ ws,offset ≤ w.offset → w.endOffset < offset + len → unregisterWindow w.id = 0

theorem walk_starts : micscifRmaListUnregister unregisterWindow (w :: ws) offset n ≠
    some (err,[]) := by
  rw [micscifRmaListUnregister]
  split
  · simp
  split
  · simp
  · intro hr
    obtain ⟨r,-,hr⟩ := Option.map_eq_some_iff.mp hr
    cases hr

theorem dropWhile_found (hb : ∀ v ∈ pre,v.endOffset ≤ offset) (hw : offset < w.endOffset) :
    (pre ++ w :: ws).dropWhile (· ≠ w) = w :: ws := by
  have hp : ∀ v ∈ pre,decide (v ≠ w) = true := by
    intro v hv
    refine decide_eq_true ?_
    rintro rfl
    have := hb _ hv
    omega
  rw [dropWhile_append_of_pos hp,dropWhile_cons_of_neg (by simp)]

theorem unregister_whole_windows_iff (h : Registered ws) (hwo : -2 ^ 63 ≤ offset ∧ offset < 2 ^ 63)
    (hlen : len < 2 ^ 64) (ha : accepted offset len) :
    OnlyWhole ws offset (offset + len) (scifUnregister ws offset len unregisterWindow) ↔
      UnregisterFull.Careful ws offset len unregisterWindow := by
  have ho := h.ordered
  obtain ⟨hps,hpg,-,hwr⟩ := id ha
  have hwh : (len : Int) % 4096 = 0 := hpg
  have hlt : offset < offset + len := by omega
  have hqr : (∃ r,queryFrom ⟨offset % 2 ^ 64,len,0,.full⟩ ws (offset % 2 ^ 64) len none = .ok r) ↔
      Wanted .full 0 ws (offset % 2 ^ 64) (offset % 2 ^ 64 + len) :=
      query_iff ho (Nat.pos_of_ne_zero hps) none
  rw [scifUnregister,if_pos ha]
  by_cases hwn : Wanted .full 0 ws offset (offset + len)
  · obtain ⟨u,hu,-,hui⟩ := hwn.holds_first hlt
    have hm : offset % 2 ^ 64 = offset := Int.emod_eq_of_lt
      (le_trans (h.words u hu).1 hui.1) (by omega)
    rw [hm] at hqr ⊢
    obtain ⟨r,hr⟩ := hqr.mpr hwn
    obtain ⟨w,pre,post,rfl,hf⟩ := query_first ho hr
    obtain ⟨hls,hb,hs,-⟩ := hf
    dsimp only at hb hs
    rw [hr]
    dsimp only
    subst hls
    rw [dropWhile_found hb hs.1.2]
    have hp := ho.right
    by_cases hst : w.offset = offset
    · subst hst
      have hfr : ∀ v ∈ pre,¬ w.offset ≤ v.offset := by
        intro v hv hle
        have hbf := hb v hv
        have hv := ho.1 v (mem_append_left _ hv)
        omega
      have hun := (union_iff ho hlt).mpr ⟨hwn,w,by simp,rfl⟩
      have hen : ∃ v ∈ w :: post,v.endOffset = w.offset + len := by
        obtain ⟨v,hv,hl⟩ := hwn.2
        rcases mem_append.mp hv with hv | hv
        · have := hb v hv
          omega
        · exact ⟨v,hv,hl⟩
      have hsa : inside w.offset (w.offset + len) (pre ++ w :: post) = inside w.offset
        (w.offset + len) (w :: post) := by
        have hnn : pre.filter (within w.offset (w.offset + len)) = [] :=
          filter_eq_nil_iff.mpr fun v hv hin => hfr v hv (of_decide_eq_true hin).1
        rw [inside,filter_append,hnn,nil_append,inside]
      obtain ⟨r,hr,hi⟩ := walk_inside (n := toInt32 (len / 4096)) (p := len / 4096) hp
        (fun v hv => (h.words v (mem_append_right _ hv)).2.2) hs hen (by omega)
        (by unfold toInt32; omega)
      rw [hr]
      constructor
      · rintro ⟨err,started,he,-,hal⟩ -
        cases he
        obtain ⟨hn,hqt⟩ := hi.mp (hsa ▸ hal hun)
        refine ⟨⟨w,by simp,rfl⟩,by unfold toInt32 at hn; omega,fun v hv hle hl => ?_⟩
        rcases mem_append.mp hv with hv | hv
        · exact absurd hle (hfr v hv)
        · exact hqt v hv hl
      · intro hc
        obtain ⟨-,hsm,hqt⟩ := hc hwn
        refine ⟨r.1,r.2,rfl,fun hno => absurd hun hno,fun _ => ?_⟩
        rw [hsa]
        refine hi.mpr ⟨toInt32_of_range (by omega) (by omega),fun v hv => hqt v
          (mem_append_right _ hv) ?_⟩
        rcases mem_cons.mp hv with rfl | hv
        · exact le_rfl
        · exact (Int.le_of_lt (hp.1 w mem_cons_self)).trans (hp.after hv)
    · have hno : ¬ ∃ v ∈ pre ++ w :: post,v.offset = offset := by
        rintro ⟨v,hv,rfl⟩
        have hsa := ho.unique (by simp : w ∈ pre ++ w :: post) hv hs.1 ⟨le_rfl,ho.1 v hv⟩
        exact hst (congrArg ScifWindow.offset hsa)
      constructor
      · rintro ⟨err,started,he,hnn,-⟩
        obtain ⟨-,rfl⟩ := hnn (fun hu => hno ((union_iff ho hlt).mp hu).2)
        exact absurd he walk_starts
      · intro hc
        exact absurd (hc hwn).1 hno
  · have hnt : ¬ Union ws offset (offset + len) := fun hu => hwn ((union_iff ho hlt).mp hu).1
    have hfl : ∃ e,queryFrom ⟨offset % 2 ^ 64,len,0,.full⟩ ws (offset % 2 ^ 64) len none =
      .error e := by
      cases hq : queryFrom ⟨offset % 2 ^ 64,len,0,.full⟩ ws (offset % 2 ^ 64) len none with
      | error e => exact ⟨e,rfl⟩
      | ok r =>
        have hfn := hqr.mp ⟨r,hq⟩
        obtain ⟨u,hu,-,-,hhi⟩ := hfn.holds_first (by omega)
        have hen := (h.words u hu).2.1
        have hm : offset % 2 ^ 64 = offset := by omega
        rw [hm] at hfn
        exact absurd hfn hwn
    obtain ⟨e,he⟩ := hfl
    rw [he]
    exact ⟨fun _ hw => absurd hw hwn,fun _ => ⟨e,[],rfl,fun _ => ⟨query_error he,rfl⟩,fun hu =>
      absurd hu hnt⟩⟩

def neighbours : List ScifWindow := [⟨1,0x1000,1,3,0,.notInitiated⟩,⟨2,0x2000,2,3,0,.notInitiated⟩]

theorem neighbours_registered : Registered neighbours := ⟨⟨by decide,by decide⟩,by decide⟩

theorem neighbours_unregistered :
    scifUnregister neighbours 0x1000 0x3000 (fun _ => 0) = some (0,[1,2]) ∧
    OnlyWhole neighbours 0x1000 (0x1000 + (0x3000 : Nat))
    (scifUnregister neighbours 0x1000 0x3000 (fun _ => 0)) := by
  refine ⟨by decide,(unregister_whole_windows_iff neighbours_registered (by decide) (by decide)
    (by decide)).mpr ?_⟩
  exact fun _ => ⟨⟨_,mem_cons_self,rfl⟩,by decide,fun _ _ _ _ => rfl⟩

/-- The last page of the second window is asked for, and the whole window is unregistered. -/
theorem window_cut_open : Registered neighbours ∧ accepted 0x3000 0x1000 ∧
    scifUnregister neighbours 0x3000 0x1000 (fun _ => 0) = some (0,[2]) ∧ ¬ Union neighbours 0x3000
    (0x3000 + (0x1000 : Nat)) := by
  refine ⟨neighbours_registered,by decide,by decide,fun hu => ?_⟩
  have hin := hu.2 ⟨2,0x2000,2,3,0,.notInitiated⟩ (by decide) (by decide) (by decide)
  cases hin

end Mpss.Proofs.UnregisterFull
