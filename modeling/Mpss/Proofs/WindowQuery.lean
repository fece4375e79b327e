import Mpss.Library.Segments
import Mpss.Scif.Window

namespace Mpss.Proofs.WindowQuery
open Library.Segments Scif.Window List

def ProtOk (prot : Nat) (w : ScifWindow) : Prop := w.prot &&& prot = prot

/-- A registration list: windows that are not empty, by offset and disjoint. -/
abbrev Ordered (ws : List ScifWindow) : Prop := Apart ScifWindow.offset ScifWindow.endOffset ws

abbrev Reaches (prot : Nat) (ws : List ScifWindow) (first last : Int) : Prop :=
  Spans ScifWindow.offset ScifWindow.endOffset (ProtOk prot) ws first last

abbrev At (w : ScifWindow) (x : Int) : Prop := Contains ScifWindow.offset ScifWindow.endOffset w x

variable {req : ScifRmaReq}

section
variable {left : Nat} (hc : At w offset) (hp : w.prot &&& req.prot = req.prot)
include hc hp

theorem query_ends (hl : offset + left ≤ w.endOffset) :
    queryFrom req (w :: ws) offset left out =
      if req.type = .full → offset + left = w.endOffset then .ok
        (if left = req.nrBytes then some w else out)
      else .error (-enxio) := by
  obtain ⟨h1,h2⟩ := hc
  have hm : min (w.endOffset - offset).toNat left = left := by omega
  rw [queryFrom,if_neg (not_lt.mpr h1),if_neg (not_le.mpr h2),if_neg (not_not.mpr hp)]
  simp only [hm,Nat.sub_self,if_true]
  cases req.type <;> simp

theorem query_through (hl : w.endOffset < offset + left) :
    queryFrom req (w :: ws) offset left out =
      if req.type = .single then .error (-enxio)
      else queryFrom req ws w.endOffset (offset + left - w.endOffset).toNat
        (if left = req.nrBytes then some w else out) := by
  obtain ⟨h1,h2⟩ := hc
  have hm : min (w.endOffset - offset).toNat left = (w.endOffset - offset).toNat := by omega
  have hn : offset + ((w.endOffset - offset).toNat : Nat) = w.endOffset := by omega
  have hs : left - (w.endOffset - offset).toNat = (offset + left - w.endOffset).toNat := by omega
  rw [queryFrom,if_neg (not_lt.mpr h1),if_neg (not_le.mpr h2),if_neg (not_not.mpr hp)]
  simp only [hm,hn,hs]
  rw [if_neg (by omega)]

end

/-- Whatever the query accepts at a window, that window holds the offset and allows it. -/
theorem query_accepts (hq : queryFrom req (w :: ws) offset left out = .ok r)
    (hn : offset < w.endOffset) : At w offset ∧ ProtOk req.prot w := by
  rw [queryFrom] at hq
  split at hq
  · cases hq
  rw [if_neg (by omega)] at hq
  split at hq
  · cases hq
  · rename_i hp
    exact ⟨⟨by omega,hn⟩,not_not.mp hp⟩

theorem query_rest (ho : Ordered ws) (ha : ∀ w ∈ ws,offset ≤ w.offset) (hl : 0 < left)
    (hlt : left < req.nrBytes) (hq : queryFrom req ws offset left out = .ok r) :
    r = out ∧ Reaches req.prot ws offset (offset + left) := by
  induction ws generalizing offset left with
  | nil => simp [queryFrom] at hq
  | cons w ws ih =>
    have hw := ho.1 w mem_cons_self
    have hn : offset < w.endOffset := by
      have := ha w mem_cons_self
      omega
    obtain ⟨hc,hp⟩ := query_accepts hq hn
    by_cases hl : offset + left ≤ w.endOffset
    · rw [query_ends hc hp hl,if_neg hlt.ne] at hq
      split at hq
      · exact ⟨(Except.ok.inj hq).symm,hc,hp,.inl hl⟩
      · cases hq
    rw [query_through hc hp (by omega),if_neg hlt.ne] at hq
    split at hq
    · cases hq
    obtain ⟨hr,hs⟩ := ih ho.tail (fun v hv => ho.after hv) (by omega) (by omega) hq
    rw [Int.toNat_of_nonneg (by omega),add_sub_cancel] at hs
    exact ⟨hr,hc,hp,.inr ⟨by omega,hs⟩⟩

/-- What a successful query found: the window, those before it, and the range running on; a single
window holds the whole range. -/
structure Found (req : ScifRmaReq) (ws : List ScifWindow) (w : ScifWindow)
    (pre post : List ScifWindow) : Prop where
  list : ws = pre ++ w :: post
  before : ∀ v ∈ pre,v.endOffset ≤ req.offset
  reaches : Reaches req.prot (w :: post) req.offset (req.offset + req.nrBytes)
  single : req.type = .single → req.offset + req.nrBytes ≤ w.endOffset

theorem query_first (ho : Ordered ws) (hq : queryFrom req ws req.offset req.nrBytes none = .ok r) :
    ∃ w pre post,r = some w ∧ Found req ws w pre post := by
  induction ws with
  | nil => simp [queryFrom] at hq
  | cons w ws ih =>
    by_cases he : w.endOffset ≤ req.offset
    · have hw := ho.1 w mem_cons_self
      rw [queryFrom,if_neg (by omega),if_pos he] at hq
      obtain ⟨v,pre,post,hr,hf⟩ := ih ho.tail hq
      refine ⟨v,w :: pre,post,hr,?_,?_,hf.reaches,hf.single⟩
      · rw [hf.list,cons_append]
      · exact forall_mem_cons.mpr ⟨he,hf.before⟩
    obtain ⟨hc,hp⟩ := query_accepts hq (by omega)
    by_cases hl : req.offset + req.nrBytes ≤ w.endOffset
    · rw [query_ends hc hp hl,if_pos rfl] at hq
      split at hq
      · exact ⟨w,[],ws,(Except.ok.inj hq).symm,rfl,by simp,⟨hc,hp,.inl hl⟩,fun _ => hl⟩
      · cases hq
    rw [query_through hc hp (by omega),if_pos rfl] at hq
    split at hq
    · cases hq
    rename_i hs
    obtain ⟨hr,hrs⟩ := query_rest ho.tail (fun v hv => ho.after hv) (by omega) (by omega) hq
    rw [Int.toNat_of_nonneg (by omega),add_sub_cancel] at hrs
    exact ⟨w,[],ws,hr,rfl,by simp,⟨hc,hp,.inr ⟨by omega,hrs⟩⟩,fun h => absurd h hs⟩

theorem query_found (ho : Ordered ws) (hq : scifQueryWindow ws req = .ok r) :
    ∃ w pre post,r = some w ∧ Found req ws w pre post := by
  unfold scifQueryWindow at hq
  split at hq
  · cases hq
  · exact query_first ho hq

/-- Whatever list the query is made on, a range that it accepts lies in windows of the list. -/
theorem query_covers (hq : queryFrom req ws offset left out = .ok r) :
    Covers ScifWindow.offset ScifWindow.endOffset (ProtOk req.prot) ws offset (offset + left) := by
  induction ws generalizing offset left out with
  | nil => cases hq
  | cons w ws ih =>
    intro x hx hxl
    by_cases he : w.endOffset ≤ offset
    · rw [queryFrom] at hq
      split at hq
      · cases hq
      · obtain ⟨v,hv,hc⟩ := ih hq x hx hxl
        exact ⟨v,.tail w hv,hc⟩
    obtain ⟨hc,hp⟩ := query_accepts hq (by omega)
    by_cases hxw : x < w.endOffset
    · exact ⟨w,mem_cons_self,hp,hc.1.trans hx,hxw⟩
    rw [query_through hc hp (by omega)] at hq
    split at hq
    · cases hq
    · obtain ⟨v,hv,hcv⟩ := ih hq x (by omega) (by omega)
      exact ⟨v,.tail w hv,hcv⟩

theorem query_error (hq : queryFrom req ws offset left out = .error e) : e ≠ 0 := by
  induction ws generalizing offset left out with
  | nil =>
    cases hq
    decide
  | cons w ws ih =>
    rw [queryFrom] at hq
    split at hq
    · cases hq
      decide
    split at hq
    · exact ih hq
    split at hq
    · cases hq
      decide
    simp only at hq
    split at hq
    · split at hq
      · cases hq
      · cases hq
      · split at hq
        · cases hq
        · cases hq
          decide
    · split at hq
      · cases hq
        decide
      · exact ih hq

theorem query_window_covers (hq : scifQueryWindow ws req = .ok r) :
    Covers ScifWindow.offset ScifWindow.endOffset (ProtOk req.prot) ws req.offset
      (req.offset + req.nrBytes) := by
  unfold scifQueryWindow at hq
  split at hq
  · cases hq
  · exact query_covers hq

theorem query_window_error (hq : scifQueryWindow ws req = .error e) : e ≠ 0 := by
  unfold scifQueryWindow at hq
  split at hq
  · cases hq
    decide
  · exact query_error hq

theorem query_rest_covered (ht : req.type = .part) (ho : Ordered ws) (hl : 0 < left)
    (hlt : left < req.nrBytes) (hs : Reaches req.prot ws offset (offset + left)) :
    queryFrom req ws offset left out = .ok out := by
  induction ws generalizing offset left with
  | nil => exact hs.elim
  | cons w ws ih =>
    obtain ⟨hc,hp,hr⟩ := hs
    have hps := hc.2
    rcases hr with hr | ⟨hl',hr⟩
    · rw [query_ends hc hp hr,if_neg hlt.ne,ht,if_pos nofun]
    · rw [query_through hc hp hl',if_neg hlt.ne,ht,if_neg (by decide)]
      apply ih ho.tail (by omega) (by omega)
      rwa [Int.toNat_of_nonneg (by omega),add_sub_cancel]

theorem query_covered (ht : req.type = .part) (hn : 0 < req.nrBytes)
    (ho : Ordered (pre ++ w :: post)) (hb : ∀ v ∈ pre,v.endOffset ≤ req.offset)
    (hs : Reaches req.prot (w :: post) req.offset (req.offset + req.nrBytes)) :
    scifQueryWindow (pre ++ w :: post) req = .ok (some w) := by
  rw [scifQueryWindow,if_neg (by omega)]
  induction pre with
  | nil =>
    obtain ⟨hc,hp,hr⟩ := hs
    have hps := hc.2
    rw [nil_append]
    rcases hr with hr | ⟨hlt,hr⟩
    · rw [query_ends hc hp hr,if_pos rfl,ht,if_pos nofun]
    · rw [query_through hc hp hlt,if_pos rfl,ht,if_neg (by decide)]
      apply query_rest_covered ht ho.tail (by omega) (by omega)
      rwa [Int.toNat_of_nonneg (by omega),add_sub_cancel]
  | cons v pre ih =>
    have hv := hb v mem_cons_self
    have hne := ho.1 v mem_cons_self
    rw [cons_append,queryFrom,if_neg (by omega),if_pos hv]
    exact ih ho.tail (forall_mem_cons.mp hb).2

theorem query_whole (hp : req.prot = 0) (ho : Ordered (pre ++ w :: post))
    (hf : req.offset = w.offset) (hl : req.offset + req.nrBytes = w.endOffset) :
    scifQueryWindow (pre ++ w :: post) req = .ok (some w) := by
  have hw := ho.1 w (by simp)
  rw [scifQueryWindow,if_neg (by omega)]
  induction pre with
  | nil =>
    have hc : At w req.offset := ⟨by omega,by omega⟩
    have hpr : ProtOk req.prot w := by simp [ProtOk,hp]
    rw [nil_append,query_ends hc hpr hl.le,if_pos fun _ => hl,if_pos rfl]
  | cons v pre ih =>
    have hv : v.endOffset ≤ w.offset := ho.before mem_cons_self
    have hne := ho.1 v mem_cons_self
    rw [cons_append,queryFrom,if_neg (by omega),if_pos (by omega)]
    exact ih ho.tail

theorem insert_eq_place : scifInsertWindow w ws = place ScifWindow.offset w ws := by
  induction ws with
  | nil => rfl
  | cons v vs ih => rw [scifInsertWindow,place,ih]

theorem insert_perm (w : ScifWindow) (ws : List ScifWindow) :
    (scifInsertWindow w ws).Perm (w :: ws) := by
  rw [insert_eq_place]
  exact place_perm

theorem insert_mem (w : ScifWindow) (ws : List ScifWindow) (v : ScifWindow) :
    v ∈ scifInsertWindow w ws ↔ v = w ∨ v ∈ ws :=
  (insert_perm w ws).mem_iff.trans mem_cons

theorem insert_ordered (ho : Ordered ws) (hw : w.offset < w.endOffset)
    (hd : ∀ v ∈ ws,v.endOffset ≤ w.offset ∨ w.endOffset ≤ v.offset) :
    Ordered (scifInsertWindow w ws) := by
  rw [insert_eq_place]
  exact ho.place hw hd

end Mpss.Proofs.WindowQuery
