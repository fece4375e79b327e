import Mpss.Library.Segments
import Mpss.Micscif.RmaList

namespace Mpss.Proofs.TempLookup
open Library.Segments Scif.TempCache Micscif.RmaList List Option

variable {head : List TempWindow} {req : TcwReq}

def start (w : TempWindow) : Int := w.vaForTemp

def stop (w : TempWindow) : Int := w.vaForTemp + w.nrPages * 4096

def reqStop (req : TcwReq) : Int := req.vaForTemp + req.nrBytes

def Grants (req : TcwReq) (w : TempWindow) : Prop := w.prot &&& req.prot = req.prot
deriving Decidable

/-- A list of cached windows: none is empty, they are sorted and disjoint, and their ends are
addresses. -/
structure Cached (head : List TempWindow) : Prop where
  apart : Apart start stop head
  words : ∀ w ∈ head,stop w < 2 ^ 64

def Inside (req : TcwReq) (w : TempWindow) : Prop := start w ≤ req.vaForTemp ∧ reqStop req ≤ stop w
deriving Decidable

def Clear (req : TcwReq) (v : TempWindow) : Prop := stop v ≤ req.vaForTemp ∨ reqStop req ≤ start v
deriving Decidable

/-- A window that has the whole request, or a range that has it and the window that is destroyed,
and that overlaps none of those that stay. -/
def Right (head : List TempWindow) (req : TcwReq) : Tcw → Prop
  | .hit w => w ∈ head ∧ Grants req w ∧ Inside req w
  | .miss req' gone =>
    ((req'.vaForTemp : Int) ≤ req.vaForTemp ∧ reqStop req ≤ reqStop req') ∧
      (∀ w,gone = some w → ¬ Grants req w ∨ (req'.vaForTemp : Int) ≤ start w ∧ stop w ≤ reqStop req') ∧
      ∀ v ∈ head,gone ≠ some v → Clear req' v

/-- The first window that ends behind the start of the request, if it does not start behind its end,
has the whole request, or lacks the permission and no other window overlaps the request. -/
def Unexpanded (head : List TempWindow) (req : TcwReq) : Prop :=
  ∀ w,head.find? (fun w => (req.vaForTemp : Int) < stop w) = some w → start w ≤ reqStop req →
    if Grants req w then Inside req w else ∀ v ∈ head,some w ≠ some v → Clear req v

theorem endVa_eq (h : stop w < 2 ^ 64) (hp : start w < stop w) : (w.endVa : Int) = stop w := by
  unfold TempWindow.endVa u64 Scif.Window.pageSize
  unfold start stop at *
  omega

theorem req_endVa_eq (h : reqStop req < 2 ^ 64) : (req.endVa : Int) = reqStop req := by
  unfold TcwReq.endVa u64
  unfold reqStop at *
  omega

/-- What becomes of the request at the first window that ends behind its start. -/
def atFirst (req : TcwReq) : Option TempWindow → Tcw
  | none => .miss req none
  | some w =>
    if reqStop req < start w then .miss req none
    else if Grants req w then if Inside req w then .hit w else .miss (req.expand w) (some w)
    else .miss req (some w)

theorem insertTcwFrom_eq : insertTcwFrom w head = place start w head := by
  induction head with
  | nil => rfl
  | cons v vs ih =>
    rw [insertTcwFrom,place,ih]
    simp [start]

section
variable (hc : Cached head)
include hc

theorem past_last (hl : head.getLast? = some w) (hb : w.endVa < req.vaForTemp) (hv : v ∈ head) :
    stop v < req.vaForTemp := by
  obtain ⟨front,rfl⟩ := getLast?_eq_some_iff.mp hl
  have hm : w ∈ front ++ [w] := mem_append_right _ (mem_singleton_self _)
  have hp := hc.apart.1 w hm
  have he := endVa_eq (hc.words w hm) hp
  rcases mem_append.mp hv with hv | hv
  · have hb := hc.apart.before hv
    omega
  · rw [mem_singleton.mp hv]
    omega

theorem expand_loses (hw : w ∈ head) (hn : 0 < req.nrBytes) (hrq : reqStop req < 2 ^ 64)
    (hf : (req.vaForTemp : Int) < stop w) (ho : ¬ Inside req w) :
    (req.vaForTemp : Int) < (req.expand w).vaForTemp ∨ reqStop (req.expand w) < reqStop req := by
  have he := endVa_eq (hc.words w hw) (hc.apart.1 w hw)
  have hr := req_endVa_eq hrq
  have hs : start w = w.vaForTemp := rfl
  by_cases hb : req.vaForTemp < w.vaForTemp
  · left
    unfold TcwReq.expand
    simp only [if_pos hb]
    split
    all_goals exact Int.ofNat_lt.mpr hb
  right
  have hl : stop w < reqStop req := by
    by_contra hshort
    exact ho ⟨by omega,by omega⟩
  unfold TcwReq.expand
  simp only [if_neg hb,if_pos (by omega : w.endVa ≤ req.endVa)]
  unfold reqStop u64 at *
  simp only
  omega

theorem Right.untouched (hfn : head.find? p = o) (hb : ∀ w,o = some w → reqStop req < start w)
    (hp : ∀ v,p v = false → stop v ≤ req.vaForTemp) : Right head req (.miss req none) := by
  refine ⟨⟨le_rfl,le_rfl⟩,nofun,?_⟩
  intro v hv _
  cases o with
  | none => exact .inl (hp v (by simpa using find?_eq_none.mp hfn v hv))
  | some w =>
    have hlt := hb w rfl
    obtain ⟨pre,post,rfl,hn⟩ := (find?_eq_some_iff_append.mp hfn).2
    rcases mem_append.mp hv with hv | hv
    · exact .inl (hp v (by simpa using hn v hv))
    rcases mem_cons.mp hv with rfl | hv
    · exact .inr hlt.le
    · have ha := hc.apart.right.after hv
      have hps := hc.apart.right.1 w mem_cons_self
      exact .inr (by omega)

theorem insert_cached (hps : start w < stop w) (hw : stop w < 2 ^ 64)
    (hd : ∀ v ∈ head,stop v ≤ start w ∨ stop w ≤ start v) : Cached (scifInsertTcw w head) := by
  have hp : Cached (place start w head) := by
    refine ⟨hc.apart.place hps hd,?_⟩
    intro v hv
    rcases mem_place.mp hv with rfl | hv
    · exact hw
    · exact hc.words v hv
  unfold scifInsertTcw
  split
  · rename_i last hl
    split_ifs with hbh
    · obtain ⟨front,rfl⟩ := getLast?_eq_some_iff.mp hl
      have hm : last ∈ front ++ [last] := mem_append_right _ (mem_singleton_self _)
      have hs : start last < start w := Int.ofNat_lt.mpr hbh
      have he : stop last ≤ start w := by
        rcases hd last hm with hb | ha
        · exact hb
        · omega
      refine ⟨⟨?_,?_⟩,?_⟩
      · exact forall_mem_append.mpr ⟨hc.apart.1,forall_mem_singleton.mpr hps⟩
      · rw [pairwise_append]
        refine ⟨hc.apart.2,pairwise_singleton _ _,?_⟩
        intro v hv u hu
        rw [mem_singleton.mp hu]
        rcases mem_append.mp hv with hv | hv
        · have hb := hc.apart.before hv
          omega
        · rw [mem_singleton.mp hv]
          exact he
      · exact forall_mem_append.mpr ⟨hc.words,forall_mem_singleton.mpr hw⟩
    · rw [insertTcwFrom_eq]
      exact hp
  · rw [insertTcwFrom_eq]
    exact hp

section
variable (hn : 0 < req.nrBytes)
include hn

theorem queryTcwFrom_eq (hrq : reqStop req < 2 ^ 64) :
    queryTcwFrom req head = atFirst req (head.find? fun w => (req.vaForTemp : Int) < stop w) := by
  have hr := req_endVa_eq hrq
  have hl : (req.vaForTemp : Int) < reqStop req := by
    unfold reqStop
    omega
  induction head with
  | nil => rfl
  | cons w ws ih =>
    have hps := hc.apart.1 w mem_cons_self
    have he := endVa_eq (hc.words w mem_cons_self) hps
    have hs : start w = w.vaForTemp := rfl
    rw [queryTcwFrom]
    by_cases hb : reqStop req < start w
    · have hf : (req.vaForTemp : Int) < stop w := by omega
      rw [if_pos (by omega),find?_cons_of_pos (by simpa using hf),atFirst,if_pos hb]
    rw [if_neg (by omega)]
    by_cases hsk : stop w ≤ req.vaForTemp
    · rw [if_pos (by omega),find?_cons_of_neg (by simpa using hsk)]
      exact ih ⟨hc.apart.tail,(forall_mem_cons.mp hc.words).2⟩
    rw [if_neg (by omega),find?_cons_of_pos (by simpa using hsk),atFirst,if_neg hb]
    by_cases hg : Grants req w
    · have hp : w.prot &&& req.prot = req.prot := hg
      rw [if_pos hp,if_pos hg]
      by_cases hi : Inside req w
      · have hw : w.vaForTemp ≤ req.vaForTemp ∧ req.endVa ≤ w.endVa := by
          obtain ⟨hlw,hh⟩ := hi
          omega
        rw [if_pos hw,if_pos hi]
      · have hw : ¬ (w.vaForTemp ≤ req.vaForTemp ∧ req.endVa ≤ w.endVa) := by
          rintro ⟨hlw,hh⟩
          exact hi ⟨by omega,by omega⟩
        rw [if_neg hw,if_neg hi]
    · have hp : ¬ w.prot &&& req.prot = req.prot := hg
      rw [if_neg hp,if_neg hg]

/-- The look at the last window only saves the walk through the list. -/
theorem scifQueryTcw_eq (hr : reqStop req < 2 ^ 64) :
    scifQueryTcw head req = atFirst req (head.find? fun w => (req.vaForTemp : Int) < stop w) := by
  have hf := queryTcwFrom_eq hc hn hr
  rw [scifQueryTcw,if_neg (ne_of_gt hn)]
  split
  · split
    · rw [find?_eq_none.mpr fun v hv => by simpa using le_of_lt (past_last hc ‹_› ‹_› hv)]
      rfl
    · exact hf
  · exact hf

/-- The answer is right exactly where the request is not widened and no window overlaps it beside
one without the permission. -/
theorem right_iff (hr : reqStop req < 2 ^ 64) :
    Right head req (scifQueryTcw head req) ↔ Unexpanded head req := by
  rw [scifQueryTcw_eq hc hn hr,Unexpanded]
  cases hfn : head.find? (fun w => (req.vaForTemp : Int) < stop w) with
  | none => exact iff_of_true (.untouched hc hfn nofun (by simp)) nofun
  | some w =>
    have hw : w ∈ head := mem_of_find?_eq_some hfn
    have hf : (req.vaForTemp : Int) < stop w := by simpa using find?_some hfn
    simp only [some.injEq,forall_eq']
    rw [atFirst]
    by_cases hb : reqStop req < start w
    · rw [if_pos hb]
      exact iff_of_true (.untouched hc hfn (by simpa using hb) (by simp))
        (fun hle => absurd hb (not_lt.mpr hle))
    rw [if_neg hb,imp_iff_right (not_lt.mp hb)]
    by_cases hg : Grants req w
    · rw [if_pos hg,if_pos hg]
      split_ifs with hi
      · exact iff_of_true ⟨hw,hg,hi⟩ hi
      refine iff_of_false ?_ hi
      rintro ⟨⟨hlw,hh⟩,-⟩
      rcases expand_loses hc hw hn hr hf hi with hl | hl
      · exact absurd hlw (not_le.mpr hl)
      · exact absurd hh (not_le.mpr hl)
    · rw [if_neg hg,if_neg hg]
      refine ⟨fun h => h.2.2,fun h => ⟨⟨le_rfl,le_rfl⟩,?_,h⟩⟩
      intro v hv
      cases hv
      exact .inl hg

theorem Unexpanded.miss (hr : reqStop req < 2 ^ 64) (hu : Unexpanded head req)
    (hq : scifQueryTcw head req = .miss req' gone) : req' = req := by
  rw [scifQueryTcw_eq hc hn hr] at hq
  cases hfn : head.find? (fun w => (req.vaForTemp : Int) < stop w) with
  | none =>
    rw [hfn] at hq
    cases hq
    rfl
  | some w =>
    rw [hfn,atFirst] at hq
    split_ifs at hq with hb hg ho
    · cases hq
      rfl
    · have hi := hu w hfn (not_lt.mp hb)
      rw [if_pos hg] at hi
      exact absurd hi ho
    · cases hq
      rfl

theorem Right.insert (hr : Right head req (.miss req' gone))
    (hs : start w = req'.vaForTemp) (hsp : stop w = reqStop req') (hw : reqStop req' < 2 ^ 64) :
    Cached (scifInsertTcw w (head.filter fun v => gone ≠ some v)) := by
  obtain ⟨⟨hlw,hh⟩,-,hcl⟩ := hr
  have hlf : Cached (head.filter fun v => gone ≠ some v) :=
    ⟨hc.apart.sublist filter_sublist,fun v hv => hc.words v (mem_filter.mp hv).1⟩
  have hl : (req.vaForTemp : Int) < reqStop req := by
    unfold reqStop
    omega
  apply insert_cached hlf (by omega) (by omega)
  intro v hv
  rw [hs,hsp]
  obtain ⟨hm,hst⟩ := mem_filter.mp hv
  exact hcl v hm (by simpa using hst)

end

end

/-- A miss keeps the whole request and leaves room for it exactly under the condition. -/
theorem tcw_query_right_iff (hc : Cached head) (hn : 0 < req.nrBytes) (hreq : reqStop req < 2 ^ 64) :
    (Right head req (scifQueryTcw head req) ↔ Unexpanded head req) ∧
      (Unexpanded head req → ∀ req' gone w,scifQueryTcw head req = .miss req' gone →
        start w = req'.vaForTemp → stop w = reqStop req' →
        Cached (scifInsertTcw w (head.filter fun v => gone ≠ some v))) := by
  refine ⟨right_iff hc hn hreq,?_⟩
  intro hu req' gone w hq hs hsp
  have hr := (right_iff hc hn hreq).mpr hu
  rw [hq] at hr
  exact hr.insert hc hn hs hsp (hu.miss hc hn hreq hq ▸ hreq)

def twoPages : List TempWindow := [⟨0,0x2000,2,1⟩]

theorem twoPages_cached : Cached twoPages := by
  refine ⟨⟨?_,?_⟩,?_⟩
  all_goals decide

/-- A page is found in a window, which gives way to a request for more than it grants. -/
theorem page_of_window_found :
    Right twoPages ⟨0x3000,0x1000,1⟩ (scifQueryTcw twoPages ⟨0x3000,0x1000,1⟩) ∧
      scifQueryTcw twoPages ⟨0x3000,0x2000,3⟩ = .miss ⟨0x3000,0x2000,3⟩ (some ⟨0,0x2000,2,1⟩) ∧
      Cached (scifInsertTcw ⟨1,0x3000,2,3⟩ (twoPages.filter fun v => some ⟨0,0x2000,2,1⟩ ≠
      some v)) := by
  have hn : 0 < (⟨0x3000,0x2000,3⟩ : TcwReq).nrBytes := by decide
  refine ⟨((tcw_query_right_iff twoPages_cached (by decide) (by decide)).1).mpr ?_,rfl,
    (tcw_query_right_iff twoPages_cached hn (by decide)).2 ?_ _ _ ⟨1,0x3000,2,3⟩ rfl rfl rfl⟩
  all_goals
    intro w hw _
    cases hw
    decide

/-- The request starts a page before the window: the range that is registered instead starts with
the window. -/
theorem request_loses_first_page :
    scifQueryTcw twoPages ⟨0x1000,0x2000,1⟩ = .miss ⟨0x2000,0x3000,1⟩ (some ⟨0,0x2000,2,1⟩) ∧
      ¬ Right twoPages ⟨0x1000,0x2000,1⟩ (scifQueryTcw twoPages ⟨0x1000,0x2000,1⟩) := by
  refine ⟨rfl,?_⟩
  rintro ⟨⟨hl,-⟩,-⟩
  exact absurd hl (by decide)

/-- The answer at the first window that ends no earlier than the request starts. A window that is
destroyed gives way to a range not beyond it and the request, all of both if it grants the
request. -/
inductive Met (req : TcwReq) : Option TempWindow → Tcw → Prop
  | none : Met req none (.miss req none)
  | before (hb : reqStop req < start u) : Met req (some u) (.miss req none)
  | holds (hh : Grants req u ∧ Inside req u) : Met req (some u) (.hit u)
  | joins (ho : ¬ (Grants req u ∧ Inside req u)) (hr : start u ≤ reqStop req)
      (hf : min (req.vaForTemp : Int) (start u) ≤ req'.vaForTemp ∧ (req'.vaForTemp : Int) ≤
      req.vaForTemp)
      (hl : reqStop req ≤ reqStop req' ∧ reqStop req' ≤ max (reqStop req) (stop u))
      (hw : ¬ Grants req u ∨ (req'.vaForTemp : Int) ≤ start u ∧ stop u ≤ reqStop req') :
    Met req (some u) (.miss req' (some u))

theorem queryTcwLoop_met (hc : Cached head) (hn : 0 < req.nrBytes) (hrq : reqStop req < 2 ^ 64) :
    Met req (head.find? fun w => (req.vaForTemp : Int) ≤ stop w) (queryTcwLoop req head) := by
  have hr := req_endVa_eq hrq
  have hq : reqStop req = req.vaForTemp + req.nrBytes := rfl
  induction head with
  | nil => exact .none
  | cons w ws ih =>
    have hps := hc.apart.1 w mem_cons_self
    have hwd := hc.words w mem_cons_self
    have he := endVa_eq hwd hps
    have hs : start w = w.vaForTemp := rfl
    rw [queryTcwLoop]
    by_cases hsk : stop w < req.vaForTemp
    · rw [if_neg (by omega),if_pos (by omega),find?_cons_of_neg (by simpa using hsk)]
      exact ih ⟨hc.apart.tail,(forall_mem_cons.mp hc.words).2⟩
    rw [find?_cons_of_pos (by simpa using hsk),if_neg (by omega : ¬ w.endVa < req.vaForTemp)]
    by_cases hb : reqStop req < start w
    · rw [if_pos (by omega),if_pos (by omega)]
      exact .before hb
    rw [if_neg (by omega : ¬ req.endVa < w.vaForTemp)]
    by_cases hg : Grants req w
    · have hp : ¬ w.prot &&& req.prot ≠ req.prot := not_not.mpr hg
      split
      · refine .joins (fun h => ?_) (by omega) (by dsimp only; omega) ?_ (.inr ?_)
        · have := h.2.1
          omega
        all_goals
          simp only [reqStop,u64]
          split <;> omega
      split
      · refine .joins (fun h => ?_) (by omega) ?_ ?_ (.inr ?_)
        · have := h.2.2
          omega
        all_goals
          simp only [reqStop,u64]
          omega
      · exact .holds ⟨hg,by omega,by omega⟩
    · have hp : w.prot &&& req.prot ≠ req.prot := hg
      rw [if_pos hp,if_pos hp,ite_self]
      exact .joins (fun h => hg h.1) (by omega) (by omega) (by omega) (.inl hg)

/-- The first window that ends no earlier than the request starts, if it does not start behind its
end, grants and holds all of it, or no other window overlaps it. -/
def Alone (head : List TempWindow) (req : TcwReq) : Prop :=
  ∀ w,head.find? (fun w => (req.vaForTemp : Int) ≤ stop w) = some w → start w ≤ reqStop req →
    Grants req w ∧ Inside req w ∨ ∀ v ∈ head,some w ≠ some v → Clear req v

theorem micscifQueryTcw_met (hc : Cached head) (hn : 0 < req.nrBytes) (hr : reqStop req < 2 ^ 64) :
    Met req (head.find? fun w => (req.vaForTemp : Int) ≤ stop w) (micscifQueryTcw head req) := by
  have hm := queryTcwLoop_met hc hn hr
  unfold micscifQueryTcw
  split
  · split
    · rw [find?_eq_none.mpr fun v hv => by simpa using past_last hc ‹_› ‹_› hv]
      exact .none
    · exact hm
  · exact hm

theorem Met.word (hm : Met req o (.miss req' gone)) (hr : reqStop req < 2 ^ 64)
    (ho : ∀ u ∈ o,stop u < 2 ^ 64) : reqStop req' < 2 ^ 64 := by
  cases hm with
  | none => exact hr
  | before => exact hr
  | joins _ _ _ hl =>
    have := ho _ rfl
    omega

theorem right_iff_alone (hc : Cached head) (hn : 0 < req.nrBytes) (hr : reqStop req < 2 ^ 64) :
    Right head req (micscifQueryTcw head req) ↔ Alone head req := by
  have hm := micscifQueryTcw_met hc hn hr
  rw [Alone]
  have hp : ∀ v,decide ((req.vaForTemp : Int) ≤ stop v) = false → stop v ≤ req.vaForTemp := by
    intro v hv
    have := of_decide_eq_false hv
    omega
  generalize micscifQueryTcw head req = r at hm
  cases hfn : head.find? (fun w => (req.vaForTemp : Int) ≤ stop w) with
  | none =>
    rw [hfn] at hm
    cases hm
    exact iff_of_true (.untouched hc hfn nofun hp) nofun
  | some w =>
    have hw : w ∈ head := mem_of_find?_eq_some hfn
    have hf : (req.vaForTemp : Int) ≤ stop w := by simpa using find?_some hfn
    rw [hfn] at hm
    simp only [some.injEq,forall_eq']
    cases hm with
    | before hb =>
      exact iff_of_true (.untouched hc hfn (by simpa using hb) hp)
        (fun hle => absurd hb (not_lt.mpr hle))
    | holds hh => exact iff_of_true ⟨hw,hh⟩ fun _ => .inl hh
    | joins ho hr hf hl hwh =>
      rw [imp_iff_right hr,or_iff_right ho]
      constructor
      · intro h v hv hne
        have hcl := h.2.2 v hv (by simpa using hne)
        unfold Clear at *
        omega
      · intro h
        refine ⟨⟨hf.2,hl.1⟩,fun u hu => some.inj hu ▸ hwh,?_⟩
        intro v hv hne
        have hcl := h v hv (by simpa using hne)
        have hd := Separate.distinct (hc.apart.2.imp Or.inl) hw hv (by simpa using hne)
        have hps := hc.apart.1 v hv
        unfold Clear at *
        omega

/-- A query ends right, and a new window for a miss finds its place, exactly under the condition. -/
theorem joined_range_right_iff (hc : Cached head) (hn : 0 < req.nrBytes)
    (hreq : reqStop req < 2 ^ 64) : (Right head req (micscifQueryTcw head req) ↔ Alone head req) ∧
      (Alone head req → ∀ req' gone w,micscifQueryTcw head req = .miss req' gone →
        start w = req'.vaForTemp → stop w = reqStop req' →
        Cached (micscifInsertTcw w (head.filter fun v => gone ≠ some v))) := by
  refine ⟨right_iff_alone hc hn hreq,?_⟩
  intro ha req' gone w hq hs hsp
  have hr := (right_iff_alone hc hn hreq).mpr ha
  have hm := micscifQueryTcw_met hc hn hreq
  rw [hq] at hr hm
  exact hr.insert hc hn hs hsp (hm.word hreq fun u hu => hc.words u (mem_of_find?_eq_some hu))

/-- A page is found in a window, and a request for its second page and the next one is joined to
it. -/
theorem page_granted :
    Right twoPages ⟨0x3000,0x1000,1⟩ (micscifQueryTcw twoPages ⟨0x3000,0x1000,1⟩) ∧
      micscifQueryTcw twoPages ⟨0x3000,0x2000,1⟩ = .miss ⟨0x2000,0x3000,1⟩ (some ⟨0,0x2000,2,1⟩) ∧
      Cached (micscifInsertTcw ⟨1,0x2000,3,1⟩ (twoPages.filter fun v => some ⟨0,0x2000,2,1⟩ ≠
      some v)) := by
  have hn : 0 < (⟨0x3000,0x2000,1⟩ : TcwReq).nrBytes := by decide
  refine ⟨((joined_range_right_iff twoPages_cached (by decide) (by decide)).1).mpr ?_,rfl,
    (joined_range_right_iff twoPages_cached hn (by decide)).2 ?_ _ _ ⟨1,0x2000,3,1⟩ rfl rfl rfl⟩
  all_goals
    intro w hw _
    cases hw
    decide

/-- The request is the second of two windows: the first, which it touches, is joined to it. -/
theorem touched_window_joined :
    micscifQueryTcw [⟨0,0x1000,1,1⟩,⟨1,0x2000,1,1⟩] ⟨0x2000,0x1000,1⟩ =
        .miss ⟨0x1000,0x2000,1⟩ (some ⟨0,0x1000,1,1⟩) ∧
      ¬ Cached (micscifInsertTcw ⟨2,0x1000,2,1⟩ [⟨1,0x2000,1,1⟩]) := by
  refine ⟨rfl,?_⟩
  rintro ⟨⟨-,ha⟩,-⟩
  exact absurd ha (by decide)

end Mpss.Proofs.TempLookup
