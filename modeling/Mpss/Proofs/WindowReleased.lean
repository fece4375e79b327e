import Mathlib.Algebra.Order.BigOperators.Group.List
import Mathlib.Data.List.Nodup
import Mpss.Library.Runs
import Mpss.Proofs.WindowQuery
import Mpss.Scif.Mapping

namespace Mpss.Proofs.WindowReleased
open Library.Runs Library.Segments WindowQuery Scif.Mapping Scif.Window List Option

def start (w : ScifWindow) : Int := w.offset / pageSize

/-- The page behind the last one. -/
def past (w : ScifWindow) : Int := start w + w.nrPages

/-- How many pages of the window the area maps. -/
def pagesIn (w : ScifWindow) (v : Vma) : Int := clip start past w v.pgoff (v.pgoff + v.nrPages)

def rangeIn (w : ScifWindow) (r : ScifRange) : Int :=
  clip start past w (r.offset / pageSize) (r.offset / pageSize + r.nrPages)

/-- The pages of the window under live mappings and live ranges. -/
def held (s : Peer) (w : ScifWindow) : Int := (s.vmas.map (pagesIn w)).sum +
    (s.ranges.map (rangeIn w)).sum

/-- The page count is that of the live references, and an unregistered window leaves the list, with
one `SCIF_DELETE_WINDOW`, just when it is zero. -/
structure Released (s : Peer) : Prop where
  counted : ∀ w ∈ s.windows,w.mappedPages = held s w
  pending : ∀ w ∈ s.windows,w.id ∈ s.unregistered → w.mappedPages ≠ 0
  deleted : ∀ id ∈ s.unregistered,(∀ w ∈ s.windows,w.id ≠ id) → s.sent.count id = 1
  early : ∀ id ∈ s.sent,id ∈ s.unregistered ∧ ∀ w ∈ s.windows,w.id ≠ id
  kept : ∀ id < s.nextId,id ∉ s.unregistered → ∃ w ∈ s.windows,w.id = id

/-- The steps after which the counts fit in an `int` and no release goes by unseen:
`scif_put_pages` waits for `SCIF_UNREG_ACCEPTED`, which no peer window reaches. -/
def Allowed (s : Peer) : Act → Prop
  | .mmap v _ => v.nrPages < 2 ^ 31 ∧ ∀ w ∈ s.windows,w.mappedPages + pagesIn w v < 2 ^ 31
  | .getPages _ len _ => ∀ w ∈ s.windows,w.mappedPages + (len / 4096 : Nat) < 2 ^ 31
  | .putPages r => ∀ w ∈ s.windows,w.id = r.window → w.unregState = .requested →
      w.mappedPages ≠ r.nrPages
  | _ => True

structure Shaped (s : Peer) (w : ScifWindow) : Prop where
  aligned : w.offset % pageSize = 0
  short : w.nrPages < 2 ^ 31
  known : w.id < s.nextId
  state : w.unregState = .requested ∧ w.id ∈ s.unregistered ∨ w.unregState = .notInitiated ∧
    w.id ∉ s.unregistered
  unsent : w.id ∉ s.sent

/-- The pages of the range are pages of the window behind its cookie. -/
structure RangeOf (r : ScifRange) (w : ScifWindow) : Prop where
  cookie : w.id = r.window
  first : start w ≤ r.offset / pageSize
  last : r.offset / pageSize + r.nrPages ≤ past w

/-- What holds of the lists before released windows are taken off. -/
structure Sound (s : Peer) : Prop where
  ordered : Apart start past s.windows
  shaped : ∀ w ∈ s.windows,Shaped s w
  ids : (s.windows.map (·.id)).Nodup
  counted : ∀ w ∈ s.windows,w.mappedPages = held s w ∧ held s w < 2 ^ 31
  mapped : ∀ v ∈ s.vmas,0 < v.nrPages ∧ v.nrPages < 2 ^ 31 ∧
    Covers start past (ProtOk v.prot) s.windows v.pgoff (v.pgoff + v.nrPages)
  taken : ∀ r ∈ s.ranges,0 < r.nrPages ∧ ∃ w ∈ s.windows,RangeOf r w
  deleted : ∀ id ∈ s.unregistered,id < s.nextId ∧ ((∃ w ∈ s.windows,w.id = id) ∨ s.sent.count id = 1)
  sentAfter : ∀ id ∈ s.sent,id ∈ s.unregistered
  kept : ∀ id < s.nextId,id ∉ s.unregistered → ∃ w ∈ s.windows,w.id = id

structure Inv (s : Peer) : Prop extends Sound s where
  pending : ∀ w ∈ s.windows,isReleased w = false

variable {l : List ScifWindow}

theorem Shaped.requested (h : Shaped s w) : w.unregState = .requested ↔ w.id ∈ s.unregistered := by
  rcases h.state with ⟨hs,hu⟩ | ⟨hs,hu⟩
  · exact iff_of_true hs hu
  · exact iff_of_false (by simp [hs]) hu

theorem pending_iff : isReleased w = false ↔ (w.unregState = .requested → w.mappedPages ≠ 0) := by
  simp [isReleased]

theorem Inv.released (h : Inv s) : Released s := by
  refine ⟨fun w hw => (h.counted w hw).1,?_,?_,?_,h.kept⟩
  · intro w hw hu hz
    exact pending_iff.mp (h.pending w hw) ((h.shaped w hw).requested.mpr hu) hz
  · intro id hid ho
    rcases (h.deleted id hid).2 with ⟨w,hw,he⟩ | hc
    · exact absurd he (ho w hw)
    · exact hc
  · intro id hid
    refine ⟨h.sentAfter id hid,?_⟩
    rintro w hw rfl
    exact (h.shaped w hw).unsent hid

theorem pagesIn_nonneg (w : ScifWindow) (v : Vma) : 0 ≤ pagesIn w v := clip_nonneg w _ _

theorem rangeIn_nonneg : 0 ≤ rangeIn w r := clip_nonneg w _ _

theorem vmas_nonneg (s : Peer) (w : ScifWindow) : ∀ x ∈ s.vmas.map (pagesIn w),0 ≤ x :=
  forall_mem_map.mpr (fun v _ => pagesIn_nonneg w v)

theorem ranges_nonneg (s : Peer) (w : ScifWindow) : ∀ x ∈ s.ranges.map (rangeIn w),0 ≤ x :=
  forall_mem_map.mpr (fun _ _ => rangeIn_nonneg)

theorem held_nonneg (s : Peer) (w : ScifWindow) : 0 ≤ held s w :=
  add_nonneg (sum_nonneg (vmas_nonneg s w)) (sum_nonneg (ranges_nonneg s w))

theorem vma_le_held (w : ScifWindow) (hv : v ∈ s.vmas) : pagesIn w v ≤ held s w := by
  have h1 := single_le_sum (vmas_nonneg s w) _ (mem_map.mpr ⟨v,hv,rfl⟩)
  have h2 := sum_nonneg (ranges_nonneg s w)
  unfold held
  omega

theorem range_le_held (w : ScifWindow) (hr : r ∈ s.ranges) : rangeIn w r ≤ held s w := by
  have h1 := single_le_sum (ranges_nonneg s w) _ (mem_map.mpr ⟨r,hr,rfl⟩)
  have h2 := sum_nonneg (vmas_nonneg s w)
  unfold held
  omega

theorem RangeOf.pages (h : RangeOf r w) (hp : 0 < r.nrPages) : rangeIn w r = r.nrPages := by
  have hl := h.last
  rw [rangeIn,clip_start ⟨h.first,by omega⟩ (by omega)]
  omega

/-- Take the released windows off the list and tell the owner. -/
def settle (s : Peer) : Peer :=
  { s with windows := s.windows.filter (fun w => isReleased w = false)
           sent := s.sent ++ (s.windows.filter (fun w => isReleased w)).map (·.id) }

theorem isReleased_iff : isReleased w = true ↔ w.unregState = .requested ∧ w.mappedPages = 0 := by
  simp [isReleased]

theorem Sound.id_inj (h : Sound s) (hv : v ∈ s.windows) (hw : w ∈ s.windows) (he : v.id = w.id) :
    v = w := inj_on_of_nodup_map h.ids hv hw he

theorem Sound.unreleased (h : Sound s) (hw : w ∈ s.windows) (hp : 0 < held s w) :
    isReleased w = false := by
  refine pending_iff.mpr (fun _ => ?_)
  have := (h.counted w hw).1
  omega

theorem Sound.rangeIn_eq (h : Sound s) (hw : w ∈ s.windows) (hr : RangeOf r w) (hp : 0 < r.nrPages)
    (hu : u ∈ s.windows) : rangeIn u r = if u.id = r.window then r.nrPages else 0 := by
  split_ifs with he
  · rw [h.id_inj hu hw (he.trans hr.cookie.symm)]
    exact hr.pages hp
  apply clip_none
  intro x hx hxl hxu
  have hxw : Contains start past w x := ⟨hr.first.trans hx,hxl.trans_le hr.last⟩
  exact he (h.ordered.unique hu hw hxu hxw ▸ hr.cookie)

theorem Sound.inv (h : Sound s) : Inv (settle s) := by
  have hmm : ∀ {w},w ∈ (settle s).windows ↔ w ∈ s.windows ∧ isReleased w = false := by
    intro w
    simp [settle,mem_filter]
  have hsn : ∀ {id},id ∈ (settle s).sent ↔
      id ∈ s.sent ∨ ∃ w ∈ s.windows,isReleased w = true ∧ w.id = id := by
    intro id
    simp [settle,List.mem_map,List.mem_filter,and_assoc]
  refine ⟨⟨?_,?_,?_,?_,?_,?_,?_,?_,?_⟩,fun w hw => (hmm.mp hw).2⟩
  · exact h.ordered.sublist filter_sublist
  · intro w hw
    obtain ⟨hw,hr⟩ := hmm.mp hw
    have hs := h.shaped w hw
    refine { hs with unsent := ?_ }
    intro hm
    rcases hsn.mp hm with hm | ⟨v,hv,hvr,he⟩
    · exact hs.unsent hm
    · rw [h.id_inj hv hw he,hr] at hvr
      cases hvr
  · exact h.ids.sublist (filter_sublist.map _)
  · intro w hw
    exact h.counted w (hmm.mp hw).1
  · intro v hv
    obtain ⟨hp,hl,hc⟩ := h.mapped v hv
    refine ⟨hp,hl,?_⟩
    intro x hx hxl
    obtain ⟨w,hw,hpr,hcx⟩ := hc x hx hxl
    have hps : 0 < held s w := (clip_pos hcx hx hxl).trans_le (vma_le_held w hv)
    exact ⟨w,hmm.mpr ⟨hw,h.unreleased hw hps⟩,hpr,hcx⟩
  · intro r hr
    obtain ⟨hp,w,hw,he⟩ := h.taken r hr
    have hps : 0 < held s w := hp.trans_le (he.pages hp ▸ range_le_held w hr)
    exact ⟨hp,w,hmm.mpr ⟨hw,h.unreleased hw hps⟩,he⟩
  · intro id hid
    obtain ⟨hk,hd⟩ := h.deleted id hid
    refine ⟨hk,?_⟩
    rcases hd with ⟨w,hw,rfl⟩ | hc
    · cases hr : isReleased w with
      | false => exact .inl ⟨w,hmm.mpr ⟨hw,hr⟩,rfl⟩
      | true =>
        right
        have hin : w.id ∈ (s.windows.filter (fun w => isReleased w)).map (·.id) :=
          mem_map.mpr ⟨w,mem_filter.mpr ⟨hw,hr⟩,rfl⟩
        have hnd := h.ids.sublist ((filter_sublist (p := fun w => isReleased w)).map (·.id))
        have h1 := count_eq_one_of_mem hnd hin
        have h0 := count_eq_zero_of_not_mem (h.shaped w hw).unsent
        simp [settle,count_append,h0,h1]
    · right
      have hno : id ∉ (s.windows.filter (fun w => isReleased w)).map (·.id) := by
        intro hm
        obtain ⟨w,hw,rfl⟩ := mem_map.mp hm
        have hun := (h.shaped w (mem_filter.mp hw).1).unsent
        rw [count_eq_zero_of_not_mem hun] at hc
        cases hc
      simp [settle,count_append,hc,count_eq_zero_of_not_mem hno]
  · intro id hid
    rcases hsn.mp hid with hid | ⟨w,hw,hr,rfl⟩
    · exact h.sentAfter id hid
    · exact (h.shaped w hw).requested.mp (isReleased_iff.mp hr).1
  · intro id hid hu
    obtain ⟨w,hw,rfl⟩ := h.kept id hid hu
    exact ⟨w,hmm.mpr ⟨hw,pending_iff.mpr (fun hr => absurd ((h.shaped w hw).requested.mp hr) hu)⟩,rfl⟩

theorem window_pages (ha : w.offset % pageSize = 0) :
    w.offset = start w * pageSize ∧ w.endOffset = past w * pageSize := by
  unfold ScifWindow.endOffset past start pageSize at *
  omega

theorem contains_pages (ha : w.offset % pageSize = 0) :
    Contains ScifWindow.offset ScifWindow.endOffset w (p * pageSize) ↔
      Contains start past w p := by
  obtain ⟨h1,h2⟩ := window_pages ha
  unfold Contains
  rw [h1,h2]
  unfold pageSize
  omega

theorem reaches_pages (ha : ∀ w ∈ l,w.offset % pageSize = 0) (p q : Int) :
    Reaches prot l (p * pageSize) (q * pageSize) ↔
      Spans start past (ProtOk prot) l p q := by
  induction l generalizing p with
  | nil => rfl
  | cons w l ih =>
    have hw := ha w mem_cons_self
    have hr := ih (forall_mem_cons.mp ha).2 (past w)
    have he := (window_pages hw).2
    unfold Reaches at hr ⊢
    rw [Spans,Spans,contains_pages hw,he,hr]
    have hle : q * pageSize ≤ past w * pageSize ↔ q ≤ past w := by
      unfold pageSize
      omega
    have hlt : past w * pageSize < q * pageSize ↔ past w < q := by omega
    rw [hle,hlt]

theorem ordered_pages (ha : ∀ w ∈ l,w.offset % pageSize = 0) : Ordered l ↔ Apart start past l := by
  have hs : ∀ w ∈ l,w.offset < w.endOffset ↔ start w < past w := by
    intro w hw
    obtain ⟨h1,h2⟩ := window_pages (ha w hw)
    rw [h1,h2]
    unfold pageSize
    omega
  have hn : ∀ v ∈ l,∀ w ∈ l,v.endOffset ≤ w.offset ↔ past v ≤ start w := by
    intro v hv w hw
    rw [(window_pages (ha v hv)).2,(window_pages (ha w hw)).1]
    unfold pageSize
    omega
  constructor
  · intro h
    exact ⟨fun w hw => (hs w hw).mp (h.1 w hw),h.2.imp_of_mem (fun hv hw hle => (hn _ hv _ hw).mp hle)⟩
  · intro h
    exact ⟨fun w hw => (hs w hw).mpr (h.1 w hw),h.2.imp_of_mem
      (fun hv hw hle => (hn _ hv _ hw).mpr hle)⟩

theorem Sound.ordered_bytes (h : Sound s) : Ordered s.windows :=
  (ordered_pages (fun w hw => (h.shaped w hw).aligned)).mpr h.ordered

theorem toInt32_of_small (h1 : -2 ^ 31 ≤ n) (h2 : n < 2 ^ 31) : toInt32 n = n := by
  unfold toInt32
  omega

def shift (n : ScifWindow → Int) (w : ScifWindow) : ScifWindow :=
  { w with mappedPages := w.mappedPages + n w }

theorem shift_zero (h : n w = 0) : shift n w = w := by simp [shift,h]

theorem map_shift_zero (h : ∀ w ∈ l,n w = 0) : l.map (shift n) = l := by
  have := map_congr_left (fun w hw => shift_zero (h w hw))
  rw [this,List.map_id']

theorem loop_nr_pages (ha : w.offset % pageSize = 0) (hs : w.nrPages < 2 ^ 31)
    (hc : Contains start past w p) (hq : p ≤ q) :
    loopNrPages w (p * pageSize) (q - p) = clip start past w p q := by
  rw [clip_start hc hq]
  obtain ⟨h1,h2⟩ := hc
  have he := (window_pages ha).2
  have hd : (w.endOffset - p * pageSize) / pageSize = past w - p := by
    rw [he]
    unfold pageSize
    omega
  unfold loopNrPages
  rw [hd,toInt32_of_small (by omega) (by unfold past at *; omega)]
  omega

variable {l pre post : List ScifWindow}

theorem clip_rest (h : Apart start past (w :: l)) (hv : v ∈ l) (hc : Contains start past w p) :
    clip start past v p q = clip start past v (past w) q :=
  clip_later (h.after hv) (le_of_lt hc.2)

theorem shift_rest (h : Apart start past (w :: l)) (hc : Contains start past w p)
    (f : Int → Int) : l.map (shift (fun v => f (clip start past v p q))) =
      l.map (shift (fun v => f (clip start past v (past w) q))) := by
  apply map_congr_left
  intro v hv
  simp [shift,clip_rest h hv hc]

theorem clip_to_end (hc : Contains start past w p) (hlt : past w < q) :
    q - p - clip start past w p q = q - past w ∧
      p * pageSize + clip start past w p q * pageSize = past w * pageSize := by
  have he : clip start past w p q = past w - p := by
    have := hc.2
    rw [clip_start hc (by omega)]
    omega
  rw [he,← add_mul]
  refine ⟨by omega,?_⟩
  congr 1
  omega

/-- The windows of a list that stay, and the ids of those that are deleted. -/
def settled (l : List ScifWindow) : List ScifWindow × List Nat :=
  (l.filter (fun w => isReleased w = false),(l.filter (fun w => isReleased w)).map (·.id))

theorem settled_cons :
    settled (w :: l) =
      if isReleased w then ((settled l).1,w.id :: (settled l).2)
      else (w :: (settled l).1,(settled l).2) := by cases hr : isReleased w <;> simp [settled,hr]

theorem settled_append :
    settled (l ++ m) = ((settled l).1 ++ (settled m).1,(settled l).2 ++ (settled m).2) := by
  simp [settled]

theorem settled_pending (h : ∀ w ∈ l,isReleased w = false) : settled l = (l,[]) := by
  induction l with
  | nil => rfl
  | cons w l ih =>
    rw [settled_cons,h w mem_cons_self,ih (forall_mem_cons.mp h).2]
    rfl

section
variable (h : Apart start past l) (ha : ∀ w ∈ l,w.offset % pageSize = 0 ∧ w.nrPages < 2 ^ 31)
include h ha

theorem bump_spans (hb : ∀ w ∈ l,0 ≤ w.mappedPages ∧ w.mappedPages + clip start past w p q < 2 ^ 31)
    (hs : Spans start past P l p q) (hq : p < q) :
    bumpMapped l (p * pageSize) (q - p) = l.map (shift (fun w => clip start past w p q)) := by
  induction l generalizing p with
  | nil => exact hs.elim
  | cons w l ih =>
    obtain ⟨hc,_,hr⟩ := hs
    obtain ⟨haw,hsw⟩ := ha w mem_cons_self
    obtain ⟨hmw,hbw⟩ := hb w mem_cons_self
    have hn := loop_nr_pages haw hsw hc hq.le
    have hnn := @clip_nonneg _ start past w p q
    have hcl := clip_start hc hq.le
    rw [bumpMapped,hn,toInt32_of_small (by omega) hbw,map_cons]
    rcases hr with hr | ⟨hlt,hr⟩
    · have hz : q - p - clip start past w p q = 0 := by omega
      have hrs : ∀ v ∈ l,clip start past v p q = 0 := fun v hv => clip_right (hr.trans (h.after hv))
      rw [if_pos hz,map_shift_zero hrs]
      rfl
    obtain ⟨hl,ho⟩ := clip_to_end hc hlt
    have hz : ¬ q - past w = 0 := by omega
    rw [hl,if_neg hz,ho,shift_rest h hc (fun n => n),ih h.tail (forall_mem_cons.mp ha).2 ?_ hr hlt]
    · rfl
    · intro v hv
      rw [← clip_rest h hv hc]
      exact hb v (.tail w hv)

theorem munmap_spans (hb : ∀ w ∈ l,clip start past w p q ≤ w.mappedPages ∧ w.mappedPages < 2 ^ 31)
    (hu : ∀ w ∈ l,isReleased w = false) (hs : Spans start past P l p q) (hq : p < q) :
    munmapLoop l (p * pageSize) (q - p) =
      settled (l.map (shift (fun w => -clip start past w p q))) := by
  induction l generalizing p with
  | nil => exact hs.elim
  | cons w l ih =>
    obtain ⟨hc,_,hr⟩ := hs
    obtain ⟨haw,hsw⟩ := ha w mem_cons_self
    obtain ⟨hmw,hbw⟩ := hb w mem_cons_self
    have hn := loop_nr_pages haw hsw hc hq.le
    have hnn := @clip_nonneg _ start past w p q
    have hcl := clip_start hc hq.le
    have hrs : (if q - p - clip start past w p q = 0 then (l,[])
        else munmapLoop l (p * pageSize + clip start past w p q * pageSize)
          (q - p - clip start past w p q)) =
        settled (l.map (shift (fun v => -clip start past v p q))) := by
      rcases hr with hr | ⟨hlt,hr⟩
      · have hz : q - p - clip start past w p q = 0 := by omega
        have hno : ∀ v ∈ l,-clip start past v p q = 0 := fun v hv => by
          rw [clip_right (hr.trans (h.after hv)),neg_zero]
        rw [if_pos hz,map_shift_zero hno,settled_pending (forall_mem_cons.mp hu).2]
      obtain ⟨hl,ho⟩ := clip_to_end hc hlt
      have hz : ¬ q - past w = 0 := by omega
      rw [hl,if_neg hz,ho,shift_rest h hc (fun n => -n)]
      apply ih h.tail (forall_mem_cons.mp ha).2 ?_ (forall_mem_cons.mp hu).2 hr hlt
      intro v hv
      rw [← clip_rest h hv hc]
      exact hb v (.tail w hv)
    rw [munmapLoop,hn,toInt32_of_small (by omega) (by omega),map_cons,settled_cons]
    simp only [hrs]
    rfl

end

theorem drop_to (h : ((pre ++ w :: post).map (·.id)).Nodup) :
    (pre ++ w :: post).takeWhile (fun v => v.id ≠ w.id) = pre ∧
      (pre ++ w :: post).dropWhile (fun v => v.id ≠ w.id) = w :: post := by
  have hne : ∀ v ∈ pre,decide (v.id ≠ w.id) = true := by
    intro v hv
    rw [map_append,nodup_append] at h
    simpa using h.2.2 v.id (mem_map.mpr ⟨v,hv,rfl⟩) w.id (by simp)
  refine ⟨?_,?_⟩
  · rw [takeWhile_append_of_pos hne]
    simp
  · rw [dropWhile_append_of_pos hne]
    simp

theorem filter_id (h : ((pre ++ w :: post).map (·.id)).Nodup) :
    (pre ++ w :: post).filter (fun v => v.id = w.id) = [w] := by
  rw [map_append,map_cons,nodup_append,nodup_cons] at h
  have hpr : ∀ v ∈ pre,¬ v.id = w.id := fun v hv => h.2.2 v.id
    (mem_map.mpr ⟨v,hv,rfl⟩) w.id mem_cons_self
  have hp : ∀ v ∈ post,¬ v.id = w.id := fun v hv he => h.2.1.1 (mem_map.mpr ⟨v,hv,he⟩)
  rw [filter_append,filter_cons,filter_eq_nil_iff.mpr (by simpa using hpr),
    filter_eq_nil_iff.mpr (by simpa using hp)]
  simp

/-- What a successful query for an area means for the pages of the list. -/
theorem Sound.query (h : Sound s) {v : Vma} (hq : scifQueryWindow s.windows v.req = .ok (some w)) :
    ∃ pre post,s.windows = pre ++ w :: post ∧ (∀ u ∈ pre,past u ≤ v.pgoff) ∧
      Spans start past (ProtOk v.prot) (w :: post) v.pgoff (v.pgoff + v.nrPages) := by
  obtain ⟨u,pre,post,hr,hf⟩ := query_found h.ordered_bytes hq
  cases hr
  have hal : ∀ u ∈ s.windows,u.offset % pageSize = 0 := fun u hu => (h.shaped u hu).aligned
  rw [hf.list] at hal
  refine ⟨pre,post,hf.list,?_,?_⟩
  · intro u hu
    have hb := hf.before u hu
    rw [(window_pages (hal u (mem_append_left _ hu))).2] at hb
    simp only [Vma.req,Vma.offset] at hb
    unfold pageSize at hb
    omega
  · rw [← reaches_pages (fun u hu => hal u (mem_append_right pre hu))]
    have hl : ((v.pgoff : Int) + v.nrPages) * pageSize = v.req.offset + v.req.nrBytes := by
      simp only [Vma.req,Vma.offset,pageSize]
      omega
    rw [hl]
    exact hf.reaches

theorem Sound.query_live (h : Sound s) (hv : v ∈ s.vmas) :
    ∃ w,scifQueryWindow s.windows v.req = .ok (some w) := by
  obtain ⟨hp,_,hc⟩ := h.mapped v hv
  obtain ⟨pre,w,post,hl,hb,hs⟩ := h.ordered.split (by omega) hc
  have hal : ∀ u ∈ pre ++ w :: post,u.offset % pageSize = 0 := by
    rw [← hl]
    exact fun u hu => (h.shaped u hu).aligned
  refine ⟨w,?_⟩
  have ho := h.ordered_bytes
  rw [hl] at ho ⊢
  apply query_covered rfl (by simp only [Vma.req]; omega) ho
  · intro u hu
    have := hb u hu
    rw [(window_pages (hal u (mem_append_left _ hu))).2]
    simp only [Vma.req,Vma.offset,pageSize]
    omega
  · have hls : v.req.offset + v.req.nrBytes = ((v.pgoff : Int) + v.nrPages) * pageSize := by
      simp only [Vma.req,Vma.offset,pageSize]
      omega
    rw [hls]
    exact (reaches_pages (fun u hu => hal u (mem_append_right pre hu)) _ _).mpr hs

theorem Sound.relabel (h : Sound s) (mapped : ScifWindow → Int) (state : ScifWindow → UnregState)
    (vmas : List Vma) (ranges : List ScifRange) (unregistered : List Nat)
    (hst : ∀ w ∈ s.windows,state w = .requested ∧ w.id ∈ unregistered ∨ state w = .notInitiated ∧
    w.id ∉ unregistered)
    (hc : ∀ w ∈ s.windows,mapped w = held { s with vmas := vmas,ranges := ranges } w ∧
    mapped w < 2 ^ 31)
    (hv : ∀ v ∈ vmas,0 < v.nrPages ∧ v.nrPages < 2 ^ 31 ∧
      Covers start past (ProtOk v.prot) s.windows v.pgoff (v.pgoff + v.nrPages))
    (hr : ∀ r ∈ ranges,0 < r.nrPages ∧ ∃ w ∈ s.windows,RangeOf r w)
    (hu : ∀ id ∈ unregistered,id ∈ s.unregistered ∨ ∃ w ∈ s.windows,w.id = id)
      (hk : s.unregistered ⊆ unregistered) :
    Sound { s with
      windows := s.windows.map (fun w => { w with mappedPages := mapped w,unregState := state w })
      vmas := vmas,ranges := ranges,unregistered := unregistered } := by
  have hex : ∀ {id : Nat},(∃ w ∈ s.windows,w.id = id) →
      ∃ w ∈ s.windows.map (fun w => { w with mappedPages := mapped w,unregState := state w }),
      w.id = id := by
    rintro id ⟨w,hw,rfl⟩
    exact ⟨_,mem_map.mpr ⟨w,hw,rfl⟩,rfl⟩
  refine ⟨h.ordered.map _ (fun _ => rfl) (fun _ => rfl),?_,?_,?_,?_,?_,?_,fun id hid =>
    hk (h.sentAfter id hid),?_⟩
  · refine forall_mem_map.mpr (fun v hvm => ?_)
    have hs := h.shaped v hvm
    exact { hs with state := hst v hvm }
  · rw [List.map_map]
    exact h.ids
  · refine forall_mem_map.mpr (fun v hvm => ?_)
    obtain ⟨h1,h2⟩ := hc v hvm
    exact ⟨h1,h1 ▸ h2⟩
  · intro v hvm
    obtain ⟨h1,h2,h3⟩ := hv v hvm
    refine ⟨h1,h2,fun x hx hxl => ?_⟩
    obtain ⟨w,hw,hp,hcx⟩ := h3 x hx hxl
    exact ⟨_,mem_map.mpr ⟨w,hw,rfl⟩,hp,hcx⟩
  · intro r hrm
    obtain ⟨hp,w,hw,ho⟩ := hr r hrm
    exact ⟨hp,_,mem_map.mpr ⟨w,hw,rfl⟩,ho.cookie,ho.first,ho.last⟩
  · intro id hid
    rcases hu id hid with hid | ⟨w,hw,rfl⟩
    · obtain ⟨h1,h2⟩ := h.deleted id hid
      exact ⟨h1,h2.imp_left hex⟩
    · exact ⟨(h.shaped w hw).known,.inl (hex ⟨w,hw,rfl⟩)⟩
  · intro id hid hn
    exact hex (h.kept id hid fun hm => hn (hk hm))

/-- New references with page counts changed to match leave the lists sound. -/
theorem Sound.recount (h : Sound s) (n : ScifWindow → Int) (vmas : List Vma) (ranges : List ScifRange)
    (hc : ∀ w ∈ s.windows,held { s with vmas := vmas,ranges := ranges } w = held s w + n w ∧
    held s w + n w < 2 ^ 31)
    (hv : ∀ v ∈ vmas,0 < v.nrPages ∧ v.nrPages < 2 ^ 31 ∧
      Covers start past (ProtOk v.prot) s.windows v.pgoff (v.pgoff + v.nrPages))
    (hr : ∀ r ∈ ranges,0 < r.nrPages ∧ ∃ w ∈ s.windows,RangeOf r w) :
    Sound { s with windows := s.windows.map (shift n),vmas := vmas,ranges := ranges } := by
  refine h.relabel (fun w => w.mappedPages + n w) ScifWindow.unregState vmas ranges s.unregistered
    (fun w hw => (h.shaped w hw).state) ?_ hv hr (fun id hid => .inl hid) (Subset.refl _)
  intro w hw
  rw [(h.counted w hw).1]
  exact ⟨(hc w hw).1.symm,(hc w hw).2⟩

theorem held_mmap (w : ScifWindow) (v : Vma) :
    held { s with vmas := v :: s.vmas } w = held s w + pagesIn w v := by
  simp only [held,map_cons,sum_cons]
  omega

theorem held_munmap (hv : v ∈ s.vmas) (w : ScifWindow) :
    held { s with vmas := s.vmas.erase v } w = held s w + -pagesIn w v := by
  have hp := sum_map_erase (pagesIn w) hv
  simp only [held]
  omega

theorem Inv.keeps (h : Inv s) (hw : w ∈ s.windows) (hn : 0 ≤ n w) :
    isReleased (shift n w) = false := by
  refine pending_iff.mpr (fun hr => ?_)
  have hz := pending_iff.mp (h.pending w hw) hr
  have hp := held_nonneg s w
  have hc := (h.counted w hw).1
  simp only [shift]
  omega

theorem Inv.mmap (h : Inv s) (hn : 0 < v.nrPages) (ha : Allowed s (.mmap v remap)) :
    Inv (scifMmap s v remap).2 := by
  unfold scifMmap
  split
  · rename_i w hq
    split
    · obtain ⟨hsh,hf⟩ := ha
      obtain ⟨pre,post,hl,hb,hs⟩ := h.query hq
      have hmm : ∀ u ∈ w :: post,u ∈ s.windows := fun u hu => hl ▸ mem_append_right pre hu
      have hpr : ∀ u ∈ pre,pagesIn u v = 0 := fun u hu => clip_left (hb u hu)
      have hbm : scifRmaListMmap s.windows w v.offset (toInt32 v.nrPages) =
          s.windows.map (shift (fun u => pagesIn u v)) := by
        obtain ⟨htk,hd⟩ := drop_to (hl ▸ h.ids)
        have hi : toInt32 v.nrPages = v.pgoff + v.nrPages - v.pgoff := by
          rw [toInt32_of_small (by omega) (by omega)]
          omega
        have hlp := bump_spans (h.ordered.sublist (hl ▸ sublist_append_right pre _))
          (fun u hu => ⟨(h.shaped u (hmm u hu)).aligned,(h.shaped u (hmm u hu)).short⟩) ?_ hs
          (by omega)
        · unfold scifRmaListMmap fromWindow
          rw [hl,htk,hd,hi,map_append,map_shift_zero hpr]
          exact congrArg (pre ++ ·) hlp
        · intro u hu
          refine ⟨?_,hf u (hmm u hu)⟩
          rw [(h.counted u (hmm u hu)).1]
          exact held_nonneg s u
      rw [hbm]
      refine ⟨h.recount _ (v :: s.vmas) s.ranges ?_ ?_ h.taken,?_⟩
      · intro u hu
        refine ⟨held_mmap u v,?_⟩
        rw [← (h.counted u hu).1]
        exact hf u hu
      · intro a hm
        rcases mem_cons.mp hm with rfl | hm
        · exact ⟨hn,by omega,hs.covers.mono hmm le_rfl le_rfl⟩
        · exact h.mapped a hm
      · exact forall_mem_map.mpr (fun t ht => h.keeps ht (pagesIn_nonneg t v))
    · exact h
  all_goals exact h

theorem Inv.munmap (h : Inv s) (hv : v ∈ s.vmas) : Inv (scifMunmap s v) := by
  obtain ⟨hn,hsh,_⟩ := h.mapped v hv
  obtain ⟨w,hq⟩ := h.query_live hv
  obtain ⟨pre,post,hl,hb,hs⟩ := h.query hq
  have hmm : ∀ u ∈ w :: post,u ∈ s.windows := fun u hu => hl ▸ mem_append_right pre hu
  have hp : ∀ u ∈ pre,-pagesIn u v = 0 := fun u hu => by rw [pagesIn,clip_left (hb u hu),neg_zero]
  have hsn : Sound { s with windows := s.windows.map (shift (fun u => -pagesIn u v))
                            vmas := s.vmas.erase v } := by
    refine h.recount _ (s.vmas.erase v) s.ranges ?_ (fun a ha => h.mapped a (mem_of_mem_erase ha))
      h.taken
    intro u hu
    refine ⟨held_munmap hv u,?_⟩
    have h1 := (h.counted u hu).2
    have h2 := pagesIn_nonneg u v
    omega
  have hlp := munmap_spans (h.ordered.sublist (hl ▸ sublist_append_right pre _))
    (fun u hu => ⟨(h.shaped u (hmm u hu)).aligned,(h.shaped u (hmm u hu)).short⟩) ?_
    (fun u hu => h.pending u (hmm u hu)) hs (by omega)
  · have hls : scifRmaListMunmap s.windows w v.offset (toInt32 v.nrPages) =
        settled (s.windows.map (shift (fun u => -pagesIn u v))) := by
      obtain ⟨ht,hd⟩ := drop_to (hl ▸ h.ids)
      have hi : toInt32 v.nrPages = v.pgoff + v.nrPages - v.pgoff := by
        rw [toInt32_of_small (by omega) (by omega)]
        omega
      have hk : settled pre = (pre,[]) := settled_pending
        (fun u hu => h.pending u (hl ▸ mem_append_left _ hu))
      unfold scifRmaListMunmap Vma.offset
      rw [hl,ht,hd,hi,hlp,map_append,map_shift_zero hp,settled_append,hk]
      rfl
    have hm : scifMunmap s v =
        settle { s with windows := s.windows.map (shift (fun u => -pagesIn u v))
                        vmas := s.vmas.erase v } := by
      simp only [scifMunmap,hq,hls]
      rfl
    rw [hm]
    exact hsn.inv
  · intro u hu
    have h1 := h.counted u (hmm u hu)
    have h2 := vma_le_held u hv
    unfold pagesIn at h2
    omega

theorem update_shift {id : Nat}
    (hb : ∀ w ∈ l,w.id = id → -2 ^ 31 ≤ w.mappedPages + n ∧ w.mappedPages + n < 2 ^ 31) :
    updateWindow l id (addMapped n) = l.map (shift (fun w => if w.id = id then n else 0)) := by
  apply map_congr_left
  intro w hw
  split_ifs with he
  · obtain ⟨h1,h2⟩ := hb w hw he
    simp [addMapped,shift,he,toInt32_of_small h1 h2]
  · simp [shift,he]

theorem held_getPages (w : ScifWindow) (r : ScifRange) :
    held { s with ranges := r :: s.ranges } w = held s w + rangeIn w r := by
  simp only [held,map_cons,sum_cons]
  omega

theorem held_putPages (hr : r ∈ s.ranges) (w : ScifWindow) :
    held { s with ranges := s.ranges.erase r } w = held s w + -rangeIn w r := by
  have hp := sum_map_erase (rangeIn w) hr
  simp only [held]
  omega

theorem Inv.getPages (h : Inv s) (ha : Allowed s (.getPages offset len mem)) :
    Inv (scifGetPages s offset len mem).2 := by
  unfold scifGetPages
  split
  · exact h
  rename_i hc
  simp only
  split
  · rename_i w hq
    split
    · obtain ⟨u,pre,post,hr,hf⟩ := query_found h.ordered_bytes hq
      cases hr
      have hw : w ∈ s.windows := hf.list ▸ mem_append_right pre mem_cons_self
      have hp : (0 : Int) < (len / 4096 : Nat) := by omega
      have hft := ha
      have hi : toInt32 (len / 4096 : Nat) = (len / 4096 : Nat) := by
        have h1 := hft w hw
        have h2 := (h.counted w hw).1
        have h3 := held_nonneg s w
        exact toInt32_of_small (by omega) (by omega)
      have hrn : RangeOf ⟨w.id,offset,(len / 4096 : Nat)⟩ w := by
        obtain ⟨hs,he⟩ := window_pages (h.shaped w hw).aligned
        have hfr := hf.reaches.1.1
        have hl := hf.single rfl
        dsimp only at hfr hl
        unfold pageSize at *
        refine ⟨rfl,?_,?_⟩
        all_goals
          dsimp only [pageSize]
          omega
      rw [hi,update_shift]
      · refine ⟨h.recount _ s.vmas (⟨w.id,offset,(len / 4096 : Nat)⟩ :: s.ranges) ?_ h.mapped ?_,?_⟩
        · intro u hu
          rw [held_getPages,h.rangeIn_eq hw hrn hp hu]
          refine ⟨rfl,?_⟩
          have h1 := hft u hu
          have h2 := (h.counted u hu)
          split <;> omega
        · exact forall_mem_cons.mpr ⟨⟨hp,w,hw,hrn⟩,h.taken⟩
        · refine forall_mem_map.mpr (fun t ht => h.keeps ht ?_)
          split <;> omega
      · intro u hu _
        have h1 := hft u hu
        have h2 := (h.counted u hu).1
        have h3 := held_nonneg s u
        omega
    · exact h
  all_goals exact h

theorem Inv.putPages (h : Inv s) (hr : r ∈ s.ranges) (ha : Allowed s (.putPages r)) :
    Inv (scifPutPages s r) := by
  obtain ⟨hp,w,hw,ho⟩ := h.taken r hr
  have hrn : ∀ u ∈ s.windows,rangeIn u r = if u.id = r.window then r.nrPages else 0 :=
    fun u hu => h.rangeIn_eq hw ho hp hu
  have hsh : updateWindow s.windows r.window (addMapped (-r.nrPages)) =
      s.windows.map (shift (fun w => if w.id = r.window then -r.nrPages else 0)) := by
    apply update_shift
    intro u hu he
    have h1 := h.counted u hu
    have h2 := range_le_held u hr
    rw [hrn u hu,if_pos he] at h2
    omega
  have hn : ¬ (s.windows.map (shift (fun w => if w.id = r.window then -r.nrPages else 0))).any
      (fun w => w.id = r.window ∧ w.unregState = .accepted) = true := by
    rw [List.any_eq_true]
    rintro ⟨w,hw,hac⟩
    obtain ⟨v,hv,rfl⟩ := mem_map.mp hw
    have hst : v.unregState = .accepted := (of_decide_eq_true hac).2
    rcases (h.shaped v hv).state with hs | hs <;> rw [hst] at hs <;> cases hs.1
  unfold scifPutPages
  simp only [hsh]
  rw [if_neg hn]
  refine ⟨h.recount _ s.vmas (s.ranges.erase r) ?_ h.mapped
    (fun q hq => h.taken q (mem_of_mem_erase hq)),?_⟩
  · intro u hu
    have h1 := (h.counted u hu).2
    rw [held_putPages hr u,hrn u hu]
    split
    all_goals exact ⟨rfl,by omega⟩
  · refine forall_mem_map.mpr (fun t ht => ?_)
    by_cases he : t.id = r.window
    · refine pending_iff.mpr (fun hrq hz => ?_)
      simp only [shift,if_pos he] at hz
      exact ha t ht he hrq (by omega)
    · exact h.keeps ht (by rw [if_neg he])

def request (id : Nat) (w : ScifWindow) : ScifWindow :=
  if w.id = id then { w with unregState := .requested } else w

theorem request_eq :
    request k = fun w => { w with unregState := if w.id = k then .requested else w.unregState } := by
  funext w
  unfold request
  split <;> rfl

theorem request_id : (request k w).id = w.id := by rw [request_eq]

theorem Sound.asked (h : Sound s) (hw : w ∈ s.windows) :
    Sound { s with
      windows := s.windows.map (request w.id),unregistered := w.id :: s.unregistered } := by
  rw [request_eq]
  refine h.relabel ScifWindow.mappedPages _ s.vmas s.ranges (w.id :: s.unregistered) ?_ ?_ h.mapped
    h.taken ?_ (subset_cons_self _ _)
  · intro v hv
    by_cases he : v.id = w.id
    · simp [he]
    · simpa [he] using (h.shaped v hv).state
  · intro v hv
    obtain ⟨h1,h2⟩ := h.counted v hv
    exact ⟨h1,h1 ▸ h2⟩
  · intro id hid
    rcases mem_cons.mp hid with rfl | hid
    · exact .inr ⟨w,hw,rfl⟩
    · exact .inl hid

theorem request_released (h : Inv s) (hw : w ∈ s.windows) (hv : v ∈ s.windows) :
    isReleased (request w.id v) = decide (v.id = w.id ∧ w.mappedPages = 0) := by
  by_cases he : v.id = w.id
  · have hvw := h.id_inj hv hw he
    subst hvw
    simp [request,isReleased]
  · have hne : request w.id v = v := if_neg he
    rw [hne,h.pending v hv]
    simp [he]

theorem Inv.unregister (h : Inv s) (hw : w ∈ s.windows) : Inv (scifRecvUnreg s w) := by
  have hs := (h.toSound.asked hw).inv
  obtain ⟨pre,post,hl⟩ := append_of_mem hw
  have hp := h.ordered_bytes.1 w hw
  have hq : scifQueryWindow s.windows
      { offset := w.offset,nrBytes := (w.nrPages * pageSize).toNat,prot := 0,type := .full } =
      .ok (some w) := by
    have ho := h.ordered_bytes
    rw [hl] at ho ⊢
    apply query_whole rfl ho rfl
    unfold ScifWindow.endOffset at hp ⊢
    dsimp only
    omega
  have hup : updateWindow s.windows w.id (fun v => { v with unregState := .requested }) =
      s.windows.map (request w.id) := rfl
  have hr : ∀ v ∈ s.windows,isReleased (request w.id v) =
      decide (v.id = w.id ∧ w.mappedPages = 0) := fun v hv => request_released h hw hv
  unfold scifRecvUnreg
  simp only [hq,hup]
  set ws := s.windows.map (request w.id)
  split_ifs with hz
  · have hk : ws.filter (fun v => v.id ≠ w.id) = ws.filter (fun v => isReleased v = false) := by
      apply filter_congr
      intro u hu
      obtain ⟨v,hv,rfl⟩ := mem_map.mp hu
      rw [hr v hv,request_id]
      simp [hz]
    have hi : (ws.filter (fun v => isReleased v)).map (·.id) = [w.id] := by
      have hf : ws.filter (fun v => isReleased v) =
          (s.windows.filter (fun v => v.id = w.id)).map (request w.id) := by
        rw [List.filter_map]
        congr 1
        apply filter_congr
        intro v hv
        simp [hr v hv,hz]
      rw [hf,hl,filter_id (hl ▸ h.ids)]
      simp [request_id]
    rw [hk,← hi]
    exact hs
  · have hn : ∀ u ∈ ws,isReleased u = false := by
      refine forall_mem_map.mpr (fun v hv => ?_)
      rw [hr v hv]
      simp [hz]
    exact ⟨h.toSound.asked hw,hn⟩

theorem Inv.split (h : Inv s) (hv : v ∈ s.vmas) (h0 : 0 < n) (hn : n < v.nrPages) :
    Inv { s with vmas := ⟨v.pgoff,n,v.prot⟩ :: ⟨v.pgoff + n,v.nrPages - n,v.prot⟩ ::
                   s.vmas.erase v } := by
  obtain ⟨hp,hs,hc⟩ := h.mapped v hv
  have hz : s.windows.map (shift (fun _ => 0)) = s.windows := map_shift_zero (fun _ _ => rfl)
  have hsn := h.recount (fun _ => 0)
    (⟨v.pgoff,n,v.prot⟩ :: ⟨v.pgoff + n,v.nrPages - n,v.prot⟩ :: s.vmas.erase v) s.ranges ?_ ?_ h.taken
  · rw [hz] at hsn
    exact ⟨hsn,h.pending⟩
  · intro w hw
    have h1 := (h.counted w hw).2
    have h2 := held_munmap hv w
    refine ⟨?_,by omega⟩
    have hpr : pagesIn w ⟨v.pgoff,n,v.prot⟩ + pagesIn w ⟨v.pgoff + n,v.nrPages - n,v.prot⟩ =
        pagesIn w v := by
      have hm : (v.pgoff : Int) + n = ((v.pgoff + n : Nat) : Int) := by omega
      have he : ((v.pgoff + n : Nat) : Int) + (v.nrPages - n : Nat) = v.pgoff + v.nrPages := by omega
      have hsm := clip_split (le_of_lt (h.ordered.1 w hw))
        (by omega : (v.pgoff : Int) ≤ v.pgoff + n)
        (by omega : (v.pgoff : Int) + n ≤ v.pgoff + v.nrPages)
      unfold pagesIn
      rw [he,← hm]
      exact hsm
    simp only [held,map_cons,sum_cons] at h2 ⊢
    omega
  · intro a ha
    rcases mem_cons.mp ha with rfl | ha
    · exact ⟨h0,by dsimp only; omega,hc.mono (Subset.refl _) le_rfl (by dsimp only; omega)⟩
    · rcases mem_cons.mp ha with rfl | ha
      · exact ⟨by dsimp only; omega,by dsimp only; omega,
          hc.mono (Subset.refl _) (by dsimp only; omega) (by dsimp only; omega)⟩
      · exact h.mapped a (mem_of_mem_erase ha)

theorem Sound.unheld (h : Sound s) (ha : w.offset % pageSize = 0)
    (hd : ∀ v ∈ s.windows,v.endOffset ≤ w.offset ∨ w.endOffset ≤ v.offset) : held s w = 0 := by
  have hm : ∀ v ∈ s.windows,∀ x,Contains start past v x → ¬ Contains start past w x := by
    rintro v hv x ⟨h1,h2⟩ ⟨h3,h4⟩
    obtain ⟨h5,h6⟩ := window_pages (h.shaped v hv).aligned
    obtain ⟨h7,h8⟩ := window_pages ha
    have := hd v hv
    rw [h5,h6,h7,h8] at this
    unfold pageSize at this
    omega
  have hv0 : ∀ v ∈ s.vmas,pagesIn w v = 0 := by
    intro v hv
    apply clip_none
    intro x hx hxl hc
    obtain ⟨u,hu,_,hcu⟩ := (h.mapped v hv).2.2 x hx hxl
    exact hm u hu x hcu hc
  have hr0 : ∀ r ∈ s.ranges,rangeIn w r = 0 := by
    intro r hr
    apply clip_none
    intro x hx hxl hc
    obtain ⟨_,u,hu,ho⟩ := h.taken r hr
    exact hm u hu x ⟨ho.first.trans hx,hxl.trans_le ho.last⟩ hc
  rw [held,map_congr_left hv0,map_congr_left hr0]
  simp

theorem Inv.register (h : Inv s) (hf : Fresh s.windows offset nrPages) (prot : Nat) :
    Inv { s with windows := scifInsertWindow ⟨s.nextId,offset,nrPages,prot,0,.notInitiated⟩ s.windows
                 nextId := s.nextId + 1 } := by
  obtain ⟨hnn,hal,hps,hsh,hd⟩ := hf
  have hmm := insert_mem ⟨s.nextId,offset,nrPages,prot,0,.notInitiated⟩ s.windows
  generalize hw : (⟨s.nextId,offset,nrPages,prot,0,.notInitiated⟩ : ScifWindow) = w at hmm ⊢
  have hwl : w.offset % pageSize = 0 := by rw [← hw]; exact hal
  have hwo : w.offset < w.endOffset := by
    rw [← hw]
    unfold ScifWindow.endOffset pageSize
    dsimp only
    omega
  have hwd : ∀ v ∈ s.windows,v.endOffset ≤ w.offset ∨ w.endOffset ≤ v.offset := by
    rw [← hw]
    exact hd
  have hor := insert_ordered h.ordered_bytes hwo hwd
  have hall : ∀ v ∈ scifInsertWindow w s.windows,v.offset % pageSize = 0 := by
    intro v hv
    rcases (hmm v).mp hv with rfl | hv
    · exact hwl
    · exact (h.shaped v hv).aligned
  have hi : ∀ v ∈ s.windows,v.id ≠ w.id := by
    intro v hv
    have := (h.shaped v hv).known
    rw [← hw]
    dsimp only
    omega
  have hun : held s w = 0 := h.toSound.unheld hwl hwd
  have hex : ∀ {id : Nat},(∃ v ∈ s.windows,v.id = id) →
      ∃ v ∈ scifInsertWindow w s.windows,v.id = id := by
    rintro id ⟨v,hv,he⟩
    exact ⟨v,(hmm v).mpr (.inr hv),he⟩
  have hn : w.id = s.nextId ∧ w.mappedPages = 0 ∧ w.unregState = .notInitiated ∧
      w.nrPages < 2 ^ 31 := by
    rw [← hw]
    exact ⟨rfl,rfl,rfl,hsh⟩
  have hpr := insert_perm w s.windows
  refine ⟨⟨?_,?_,?_,?_,?_,?_,?_,h.sentAfter,?_⟩,?_⟩
  · exact (ordered_pages hall).mp hor
  · intro v hv
    rcases (hmm v).mp hv with rfl | hv
    · refine ⟨hwl,hn.2.2.2,by rw [hn.1]; exact Nat.lt_succ_self _,?_,?_⟩
      · refine .inr ⟨hn.2.2.1,?_⟩
        intro hm
        have := (h.deleted _ hm).1
        omega
      · intro hm
        have := (h.deleted _ (h.sentAfter _ hm)).1
        omega
    · have hs := h.shaped v hv
      exact { hs with known := Nat.lt_succ_of_lt hs.known }
  · rw [(hpr.map _).nodup_iff,map_cons,nodup_cons]
    refine ⟨?_,h.ids⟩
    intro hm
    obtain ⟨v,hv,he⟩ := mem_map.mp hm
    exact hi v hv he
  · intro v hv
    rcases (hmm v).mp hv with rfl | hv
    · change v.mappedPages = held s v ∧ held s v < 2 ^ 31
      rw [hun]
      exact ⟨hn.2.1,by decide⟩
    · exact h.counted v hv
  · intro a ha
    obtain ⟨h1,h2,h3⟩ := h.mapped a ha
    exact ⟨h1,h2,h3.mono (fun v hv => (hmm v).mpr (.inr hv)) le_rfl le_rfl⟩
  · intro r hr
    obtain ⟨hp,v,hv,ho⟩ := h.taken r hr
    exact ⟨hp,v,(hmm v).mpr (.inr hv),ho⟩
  · intro id hid
    obtain ⟨h1,h2⟩ := h.deleted id hid
    exact ⟨Nat.lt_succ_of_lt h1,h2.imp_left hex⟩
  · intro id hid hu
    rcases Nat.lt_succ_iff_lt_or_eq.mp hid with hid | rfl
    · exact hex (h.kept id hid hu)
    · exact ⟨w,(hmm w).mpr (.inl rfl),hn.1⟩
  · intro v hv
    rcases (hmm v).mp hv with rfl | hv
    · simp [isReleased,hn.2.2.1]
    · exact h.pending v hv

theorem Inv.step (h : Inv s) (ha : Allowed s a) (hr : s.step a = some t) : Inv t := by
  cases a with
  | register offset nrPages prot => exact of_guard hr (fun hf => h.register hf prot)
  | mmap v remap => exact of_guard hr (fun hn => h.mmap hn ha)
  | split v n => exact of_guard hr (fun hg => h.split hg.1 hg.2.1 hg.2.2)
  | munmap v => exact of_guard hr h.munmap
  | getPages offset len mem =>
    cases hr
    exact h.getPages ha
  | putPages r => exact of_guard hr (fun hm => h.putPages hm ha)
  | unregister w => exact of_guard hr (fun hg => h.unregister hg.1)

theorem Inv.init : Inv Peer.init := by refine ⟨⟨⟨?_,?_⟩,?_,?_,?_,?_,?_,?_,?_,?_⟩,?_⟩ <;>
    simp [Peer.init]

/-- In every run whose steps are allowed, windows are released with their last reference. -/
theorem window_released_with_last_reference (as : List Act) (s : Peer)
    (ha : Along Peer.step Allowed Peer.init as) (he : exec Peer.step Peer.init as = some s) :
    Released s :=
  (exec_invariant (fun _ _ _ hi ha hr => Inv.step hi ha hr) Inv.init ha he).released

def unmapLast : List Act :=
  [.register 0 1 3,.mmap ⟨0,1,3⟩ true,.unregister ⟨0,0,1,3,1,.notInitiated⟩,.munmap ⟨0,1,3⟩]

theorem window_released_after_munmap :
    ∃ s,exec Peer.step Peer.init unmapLast = some s ∧ s.sent = [0] ∧ Released s := by
  refine ⟨_,rfl,rfl,window_released_with_last_reference unmapLast _ ?_ rfl⟩
  refine .cons trivial rfl (.cons ?_ rfl (.cons trivial rfl (.cons trivial rfl trivial)))
  refine ⟨by decide,?_⟩
  intro w hw
  cases mem_singleton.mp hw
  decide

/-- The same with `scif_get_pages`: the last `scif_put_pages` leaves the window on the list. -/
theorem put_pages_keeps_window :
    ∃ s,exec Peer.step Peer.init
        [.register 0 1 3,.getPages 0 4096 true,.unregister ⟨0,0,1,3,1,.notInitiated⟩,.putPages
        ⟨0,0,1⟩] = some s ∧
      ¬ Released s := by
  refine ⟨_,rfl,fun h => ?_⟩
  exact h.pending _ mem_cons_self mem_cons_self rfl

end Mpss.Proofs.WindowReleased
