import Mpss.Scif.Unregister

namespace Mpss.Proofs.UnregisterWhole
open Scif.Unregister Scif.Window List

variable {l : List ScifWindow} {w : ScifWindow}

structure Tiled (l : List ScifWindow) : Prop where
  pages : ∀ w ∈ l,0 < w.nrPages
  apart : l.Pairwise (fun v w => v.endOffset ≤ w.offset)

def Straddles (x : Int) (w : ScifWindow) : Prop := w.offset < x ∧ x < w.endOffset

def within (offset endReq : Int) (w : ScifWindow) : Bool := offset ≤ w.offset ∧ w.endOffset ≤ endReq

/-- The window lies inside the range and has not been requested before. -/
def fresh (offset endReq : Int) (w : ScifWindow) : Bool :=
  within offset endReq w && decide (w.unregState = .notInitiated)

/-- The window is requested by this call. -/
def asked (offset endReq : Int) (send : Nat → Int) (w : ScifWindow) : Bool :=
  fresh offset endReq w && decide (send w.id = 0)

def request (p : ScifWindow → Bool) (w : ScifWindow) : ScifWindow :=
  if p w then { w with unregState := .requested } else w

def result (send : Nat → Int) (w : ScifWindow) : Int :=
  if w.unregState = .notInitiated then send w.id else 0

/-- A failed call has changed and sent nothing; one that returns 0 has requested all windows inside
the range, none of them cut. -/
structure Whole (l : List ScifWindow) (offset endReq : Int) (r : Int × List ScifWindow × List Nat) :
    Prop where
  failed : r.1 < 0 → r.2.1 = l ∧ r.2.2 = []
  done : r.1 = 0 → r.2.1 = l.map (request (fresh offset endReq)) ∧
    r.2.2 = (l.filter (fresh offset endReq)).map ScifWindow.id ∧
    ∀ w ∈ l,¬Straddles offset w ∧ ¬Straddles endReq w

theorem endOffset_gt (h : 0 < w.nrPages) : w.offset < w.endOffset := by
  unfold ScifWindow.endOffset pageSize
  omega

theorem Tiled.cons (h : Tiled (w :: l)) :
    w.offset < w.endOffset ∧ (∀ v ∈ l,w.endOffset ≤ v.offset) ∧ Tiled l := by
  obtain ⟨hw,hl⟩ := forall_mem_cons.mp h.pages
  obtain ⟨hf,hr⟩ := pairwise_cons.mp h.apart
  exact ⟨endOffset_gt hw,hf,hl,hr⟩

theorem Tiled.end_gt (h : Tiled l) (hv : v ∈ l) : v.offset < v.endOffset := endOffset_gt (h.pages v hv)

theorem listUnregister_cut (h : Tiled l) (hle : offset ≤ endReq) (hc : ∃ w ∈ l,Straddles offset w) :
    listUnregister offset endReq send l err = (-einval,l,[]) := by
  induction l with
  | nil =>
    obtain ⟨w,hw,_⟩ := hc
    cases hw
  | cons w l ih =>
    obtain ⟨hp,ha,hr⟩ := h.cons
    obtain ⟨v,hv,hs,hst⟩ := hc
    rcases mem_cons.mp hv with rfl | hv
    · rw [listUnregister,if_neg (by omega),if_neg (by omega),if_pos ⟨hs,hst⟩]
    · have hb := ha v hv
      rw [listUnregister,if_neg (by omega),if_pos (by omega),ih hr ⟨v,hv,hs,hst⟩]

/-- What happens to a list whose windows all begin inside the range or behind it. -/
def outcome (offset endReq : Int) (send : Nat → Int) (l : List ScifWindow) (err : Int) : Int :=
  if l.any (fun w => decide (w.offset < endReq ∧ endReq < w.endOffset)) then -einval
  else ((l.filter (within offset endReq)).getLast?.map (result send)).getD err

theorem cut_iff : l.any (fun w => decide (w.offset < endReq ∧ endReq < w.endOffset)) = true ↔
    ∃ w ∈ l,Straddles endReq w := by
  simp only [any_eq_true,decide_eq_true_iff,Straddles]

theorem none_within (offset : Int) (h : Tiled l) (hf : ∀ w ∈ l,endReq ≤ w.offset) :
    ∀ w ∈ l,within offset endReq w = false := by
  intro w hw
  have hp := h.end_gt hw
  have hb := hf w hw
  rw [within,decide_eq_false_iff_not]
  omega

/-- The list after a call that asks for the windows of `p`, and the messages it has sent. -/
def requested (p : ScifWindow → Bool) (l : List ScifWindow) : List ScifWindow × List Nat :=
  (l.map (request p),(l.filter p).map ScifWindow.id)

theorem requested_none (hn : ∀ w ∈ l,p w = false) : requested p l = (l,[]) := by
  have hs : ∀ w ∈ l,request p w = id w := by
    intro w hw
    rw [request,hn w hw]
    rfl
  have hf : l.filter p = [] := by
    rw [filter_eq_nil_iff]
    intro w hw
    rw [hn w hw]
    exact Bool.false_ne_true
  rw [requested,map_congr_left hs,map_id,hf,map_nil]

theorem requested_passed (hno : p w = false) :
    requested p (w :: l) = (w :: (requested p l).1,(requested p l).2) := by
  have hs : request p w = w := by
    rw [request,hno]
    rfl
  rw [requested,map_cons,hs,filter_cons_of_neg (by rw [hno]; exact Bool.false_ne_true)]
  rfl

theorem asked_false (send : Nat → Int) (h : within offset endReq w = false) :
    asked offset endReq send w = false := by
  rw [asked,fresh,h]
  rfl

theorem outcome_skip (hin : within offset endReq w = false) (hc : ¬Straddles endReq w) (err : Int) :
    outcome offset endReq send (w :: l) err = outcome offset endReq send l err := by
  have hno : decide (w.offset < endReq ∧ endReq < w.endOffset) = false := decide_eq_false hc
  rw [outcome,outcome,any_cons,hno,Bool.false_or,filter_cons_of_neg
    (by rw [hin]; exact Bool.false_ne_true)]

theorem outcome_within (hin : within offset endReq w = true) (err : Int) :
    outcome offset endReq send (w :: l) err = outcome offset endReq send l (result send w) := by
  have he : w.endOffset ≤ endReq := (of_decide_eq_true hin).2
  have hno : decide (w.offset < endReq ∧ endReq < w.endOffset) = false := by
    apply decide_eq_false
    omega
  rw [outcome,outcome,any_cons,hno,Bool.false_or,filter_cons_of_pos hin,getLast?_cons]
  cases (l.filter (within offset endReq)).getLast? with
  | none | some v => rfl

theorem outcome_beyond (h : Tiled l) (hf : ∀ w ∈ l,endReq ≤ w.offset) (err : Int) :
    outcome offset endReq send l err = err := by
  have hin := none_within offset h hf
  induction l with
  | nil => rfl
  | cons w l ih =>
    obtain ⟨hw,hl⟩ := forall_mem_cons.mp hf
    obtain ⟨hwn,hln⟩ := forall_mem_cons.mp hin
    obtain ⟨_,_,hr⟩ := h.cons
    have hc : ¬Straddles endReq w := fun hs => absurd hs.1 (not_lt.mpr hw)
    rw [outcome_skip hwn hc]
    exact ih hr hl hln

theorem listUnregister_eq (h : Tiled l) (hle : offset ≤ endReq) (hct : ∀ w ∈ l,¬Straddles offset w)
    (err : Int) : listUnregister offset endReq send l err =
      (outcome offset endReq send l err,requested (asked offset endReq send) l) := by
  induction l generalizing err with
  | nil => rfl
  | cons w l ih =>
    obtain ⟨hp,haf,hrs⟩ := h.cons
    obtain ⟨hw,hl⟩ := forall_mem_cons.mp hct
    by_cases hb : endReq ≤ w.offset
    · have hf : ∀ v ∈ w :: l,endReq ≤ v.offset := by
        refine forall_mem_cons.mpr ⟨hb,?_⟩
        intro v hv
        have := haf v hv
        omega
      have hin := none_within offset h hf
      rw [listUnregister,if_pos hb,outcome_beyond h hf,requested_none fun v hv =>
        asked_false send (hin v hv)]
    by_cases hbf : w.endOffset ≤ offset
    · have hin : within offset endReq w = false := by
        apply decide_eq_false
        omega
      have hno : ¬Straddles endReq w := fun hs => absurd hs.2 (by omega)
      rw [listUnregister,if_neg hb,if_pos hbf,outcome_skip hin hno,requested_passed
        (asked_false send hin),ih hrs hl err]
    have hsr : ¬(w.offset < offset ∧ offset < w.endOffset) := hw
    by_cases he : endReq < w.endOffset
    · have hin : within offset endReq w = false := by
        apply decide_eq_false
        omega
      have hal : ∀ v ∈ w :: l,within offset endReq v = false := by
        refine forall_mem_cons.mpr ⟨hin,none_within offset hrs ?_⟩
        intro v hv
        have := haf v hv
        omega
      rw [listUnregister,if_neg hb,if_neg hbf,if_neg hsr,if_pos he,requested_none fun v hv =>
        asked_false send (hal v hv),outcome,if_pos (cut_iff.mpr ⟨w,mem_cons_self,by omega,he⟩)]
    have hin : within offset endReq w = true := by
      apply decide_eq_true
      omega
    rw [outcome_within hin]
    by_cases hst : w.unregState = .notInitiated
    · have hr : result send w = send w.id := if_pos hst
      have hrc := ih hrs hl (send w.id)
      rw [listUnregister,if_neg hb,if_neg hbf,if_neg hsr,if_neg he,if_pos hst,hr]
      split_ifs with hsn
      · have ha : asked offset endReq send w = true := by
          rw [asked,fresh,hin,decide_eq_true hst,decide_eq_true hsn]
          rfl
        have hrq : request (asked offset endReq send) w = { w with unregState := .requested } :=
          if_pos ha
        rw [hrc,requested,requested,map_cons,hrq,filter_cons_of_pos ha,map_cons]
      · have ha : asked offset endReq send w = false := by
          rw [asked,decide_eq_false hsn,Bool.and_false]
        rw [requested_passed ha,hrc]
    · have hr : result send w = 0 := if_neg hst
      have ha : asked offset endReq send w = false := by
        rw [asked,fresh,decide_eq_false hst,Bool.and_false]
        rfl
      rw [listUnregister,if_neg hb,if_neg hbf,if_neg hsr,if_neg he,if_neg hst,hr,
        requested_passed ha,ih hrs hl 0]

/-- When the call is all or nothing: a window across the beginning of the range stops it at once; or
no window lies across its end and every message is sent; or none is sent, and it ends at a window
across the end or at the error of the last one inside. -/
def Careful (l : List ScifWindow) (offset endReq : Int) (send : Nat → Int) : Prop :=
  (∃ w ∈ l,Straddles offset w) ∨
    ((∀ w ∈ l,¬Straddles endReq w) ∧ ∀ w ∈ l,fresh offset endReq w = true → send w.id = 0) ∨
    ((∀ w ∈ l,fresh offset endReq w = true → send w.id ≠ 0) ∧
      ((∃ w ∈ l,Straddles endReq w) ∨
        ∃ w ∈ (l.filter (within offset endReq)).getLast?,w.unregState = .notInitiated))

theorem asked_iff : asked offset endReq send w = true ↔ fresh offset endReq w = true ∧
    send w.id = 0 := by
  rw [asked,Bool.and_eq_true,decide_eq_true_iff]

theorem fresh_iff : fresh offset endReq w = true ↔ within offset endReq w = true ∧
    w.unregState = .notInitiated := by
  rw [fresh,Bool.and_eq_true,decide_eq_true_iff]

theorem nothing_iff : requested (asked offset endReq send) l = (l,[]) ↔
    ∀ w ∈ l,fresh offset endReq w = true → send w.id ≠ 0 := by
  constructor
  · intro hs w hw hf hz
    have hm : w ∈ l.filter (asked offset endReq send) := mem_filter.mpr ⟨hw,asked_iff.mpr ⟨hf,hz⟩⟩
    rw [map_eq_nil_iff.mp (Prod.ext_iff.mp hs).2] at hm
    cases hm
  · intro hno
    refine requested_none fun w hw => Bool.eq_false_iff.mpr fun ha => ?_
    obtain ⟨hf,hz⟩ := asked_iff.mp ha
    exact hno w hw hf hz

theorem everything_iff : requested (asked offset endReq send) l = requested
    (fresh offset endReq) l ↔ ∀ w ∈ l,fresh offset endReq w = true → send w.id = 0 := by
  constructor
  · intro hm w hw hf
    have hsm := map_inj_left.mp (Prod.ext_iff.mp hm).1 w hw
    by_contra hno
    have has : asked offset endReq send w = false :=
      Bool.eq_false_iff.mpr (fun ha => hno (asked_iff.mp ha).2)
    rw [request,request,has,hf] at hsm
    have hs := congrArg ScifWindow.unregState hsm
    rw [if_neg Bool.false_ne_true,if_pos rfl,(fresh_iff.mp hf).2] at hs
    cases hs
  · intro hal
    have hsm : ∀ w ∈ l,asked offset endReq send w = fresh offset endReq w := by
      intro w hw
      rw [Bool.eq_iff_iff,asked_iff]
      exact ⟨And.left,fun hf => ⟨hf,hal w hw hf⟩⟩
    have hrq : ∀ w ∈ l,request (asked offset endReq send) w = request (fresh offset endReq) w := by
      intro w hw
      rw [request,request,hsm w hw]
    rw [requested,requested,map_congr_left hrq,filter_congr hsm]

theorem einval_neg : -einval < 0 := by decide

/-- For every list in order and every range the call is all or nothing exactly under `Careful`. -/
theorem unregister_whole_iff (h : Tiled l) {nrPages : Int} (hpages : 0 ≤ nrPages)
    (hsend : ∀ id,send id ≤ 0) :
    Whole l offset (offset + nrPages * pageSize) (scifRmaListUnregister l offset nrPages send) ↔
      Careful l offset (offset + nrPages * pageSize) send := by
  have hle : offset ≤ offset + nrPages * pageSize := by
    unfold pageSize
    omega
  unfold scifRmaListUnregister
  generalize offset + nrPages * pageSize = endReq at hle
  by_cases hsr : ∃ w ∈ l,Straddles offset w
  · rw [listUnregister_cut h hle hsr]
    exact ⟨fun _ => .inl hsr,fun _ => ⟨fun _ => ⟨rfl,rfl⟩,fun hno => absurd hno (ne_of_lt einval_neg)⟩⟩
  have hct : ∀ w ∈ l,¬Straddles offset w := fun w hw hs => hsr ⟨w,hw,hs⟩
  rw [listUnregister_eq h hle hct]
  by_cases he : ∃ w ∈ l,Straddles endReq w
  · rw [outcome,if_pos (cut_iff.mpr he)]
    constructor
    · intro hwh
      exact .inr (.inr ⟨nothing_iff.mp (Prod.ext_iff.mpr (hwh.failed einval_neg)),.inl he⟩)
    · rintro (hs | ⟨hnn,_⟩ | ⟨hno,_⟩)
      · exact absurd hs hsr
      · obtain ⟨w,hw,hs⟩ := he
        exact absurd hs (hnn w hw)
      · exact ⟨fun _ => Prod.ext_iff.mp (nothing_iff.mpr hno),fun hz => absurd hz
          (ne_of_lt einval_neg)⟩
  · have hnn : ∀ w ∈ l,¬Straddles endReq w := fun w hw hs => he ⟨w,hw,hs⟩
    rw [outcome,if_neg (mt cut_iff.mp he),Careful]
    have hl : ∀ w ∈ (l.filter (within offset endReq)).getLast?,w ∈ l ∧ within offset endReq w =
      true := fun w hw =>
      mem_filter.mp (mem_of_getLast? hw)
    generalize (l.filter (within offset endReq)).getLast? = g at hl ⊢
    constructor
    · intro hwh
      obtain hz | hn := eq_or_ne ((g.map (result send)).getD 0) 0
      · exact .inr (.inl ⟨hnn,everything_iff.mp (Prod.ext (hwh.done hz).1 (hwh.done hz).2.1)⟩)
      cases g with
      | none => exact absurd rfl hn
      | some w =>
        have hst : w.unregState = .notInitiated := by
          by_contra hno
          exact hn (if_neg hno)
        have hng : result send w < 0 := by
          have hl' := hsend w.id
          have hne : result send w ≠ 0 := hn
          rw [result,if_pos hst] at hne ⊢
          omega
        exact .inr (.inr ⟨nothing_iff.mp (Prod.ext_iff.mpr (hwh.failed hng)),.inr ⟨w,rfl,hst⟩⟩)
    · rintro (hs | ⟨_,hal⟩ | ⟨hno,hs | ⟨w,hw,hst⟩⟩)
      · exact absurd hs hsr
      · have hz : (g.map (result send)).getD 0 = 0 := by
          cases g with
          | none => rfl
          | some w =>
            obtain ⟨hw,hin⟩ := hl w rfl
            show result send w = 0
            unfold result
            split_ifs with hst
            · exact hal w hw (fresh_iff.mpr ⟨hin,hst⟩)
            · rfl
        rw [hz]
        refine ⟨fun hno => absurd hno (lt_irrefl 0),fun _ => ?_⟩
        obtain ⟨hm,hsn⟩ := Prod.ext_iff.mp (everything_iff.mpr hal)
        exact ⟨hm,hsn,fun w hw => ⟨hct w hw,hnn w hw⟩⟩
      · exact absurd hs he
      · obtain ⟨hwl,hin⟩ := hl w hw
        have hne := hno w hwl (fresh_iff.mpr ⟨hin,hst⟩)
        obtain rfl : g = some w := hw
        show Whole l offset endReq (result send w,_,_)
        rw [result,if_pos hst]
        exact ⟨fun _ => Prod.ext_iff.mp (nothing_iff.mpr hno),fun hz => absurd hz hne⟩

def pair : List ScifWindow := [⟨1,0,1,3,0,.notInitiated⟩,⟨2,4096,2,3,0,.notInitiated⟩]

theorem pair_tiled : Tiled pair := ⟨by decide,by decide⟩

theorem one_window_whole : Tiled pair ∧ Careful pair 0 4096 (fun _ => 0) ∧
    Whole pair 0 4096 (scifRmaListUnregister pair 0 1 (fun _ => 0)) := by
  have hc : Careful pair 0 4096 (fun _ => 0) := by
    refine .inr (.inl ⟨?_,fun _ _ _ => rfl⟩)
    unfold Straddles
    decide
  have hp : (0 : Int) ≤ 1 := by decide
  exact ⟨pair_tiled,hc,(unregister_whole_iff pair_tiled hp (fun _ => le_rfl)).mpr hc⟩

/-- The first window is requested before the second is found to be cut. -/
theorem cut_window_half : Tiled pair ∧ scifRmaListUnregister pair 0 2 (fun _ => 0) =
      (-einval,[⟨1,0,1,3,0,.requested⟩,⟨2,4096,2,3,0,.notInitiated⟩],[1]) ∧
    ¬Whole pair 0 8192 (scifRmaListUnregister pair 0 2 (fun _ => 0)) := by
  refine ⟨pair_tiled,by decide,?_⟩
  intro hw
  exact absurd (hw.failed (by decide)).2 (by decide)

end Mpss.Proofs.UnregisterWhole
