import Mathlib.Data.List.Nodup
import Mpss.Library.Runs
import Mpss.Library.Segments
import Mpss.Scif.Offsets

namespace Mpss.Proofs.OffsetsBooked
open Library.Runs Library.Segments Scif.Offsets Scif.Window List Function Option

def live (s : Space) : List SelfWindow := s.windows.filter (fun w => w.offsetFreed = false)

/-- The live windows are disjoint and the reserved page frames are theirs. -/
structure Booked (s : Space) : Prop where
  disjoint : Separate SelfWindow.offset SelfWindow.endOffset (live s)
  reserved : ∀ pfn,(∃ iova ∈ s.iovad,iova.pfnLo ≤ pfn ∧ pfn ≤ iova.pfnHi) ↔
    ∃ w ∈ live s,w.offset ≤ pfn * pageSize ∧ pfn * pageSize < w.endOffset

/-- A length whose page count fits in an `int`, and no registration of pinned pages that gets
past its checks. -/
def Allowed (_ : Space) : Act → Prop
  | .register r _ => r.len < 2 ^ 43
  | .registerPinned p _ => p.invalid = true
  | _ => True

def frames (w : SelfWindow) : Iova := ⟨w.offset / pageSize,w.offset / pageSize + w.nrPages - 1⟩

structure Shaped (nextId : Nat) (w : SelfWindow) : Prop where
  aligned : w.offset % pageSize = 0
  pages : 0 < w.nrPages
  known : w.id < nextId
  listed : w.listed = true → w.offsetFreed = false

structure Inv (s : Space) : Prop where
  iovas : s.iovad = (live s).map frames
  disjoint : Separate SelfWindow.offset SelfWindow.endOffset (live s)
  shaped : ∀ w ∈ s.windows,Shaped s.nextId w
  ids : (s.windows.map (·.id)).Nodup

variable {r : RegisterArgs}

theorem live_mem : w ∈ live s ↔ w ∈ s.windows ∧ w.offsetFreed = false := by simp [live,mem_filter]

theorem frames_hold (ha : w.offset % pageSize = 0) :
    (frames w).pfnLo ≤ pfn ∧ pfn ≤ (frames w).pfnHi ↔
      w.offset ≤ pfn * pageSize ∧ pfn * pageSize < w.endOffset := by
  simp only [frames,SelfWindow.endOffset]
  unfold pageSize at *
  omega

section
variable (h : Inv s)
include h

theorem Inv.live_shaped (hw : w ∈ live s) : Shaped s.nextId w := h.shaped w (live_mem.mp hw).1

theorem Inv.booked : Booked s := by
  refine ⟨h.disjoint,?_⟩
  intro pfn
  rw [h.iovas]
  constructor
  · rintro ⟨iova,hi,hp⟩
    obtain ⟨w,hw,rfl⟩ := mem_map.mp hi
    exact ⟨w,hw,(frames_hold (h.live_shaped hw).aligned).mp hp⟩
  · rintro ⟨w,hw,hp⟩
    exact ⟨frames w,mem_map.mpr ⟨w,hw,rfl⟩,(frames_hold (h.live_shaped hw).aligned).mpr hp⟩

theorem Inv.id_inj (hv : v ∈ s.windows) (hw : w ∈ s.windows) (he : v.id = w.id) : v = w :=
  inj_on_of_nodup_map h.ids hv hw he

theorem Inv.holds_first (hv : v ∈ live s) (hw : w ∈ live s) :
    Contains SelfWindow.offset SelfWindow.endOffset v w.offset ↔ v.id = w.id := by
  constructor
  · intro hc
    by_contra hne
    have hvw : v ≠ w := fun he => hne (congrArg SelfWindow.id he)
    have hp := (h.live_shaped hw).pages
    have hd := h.disjoint.distinct hv hw hvw
    obtain ⟨h1,h2⟩ := hc
    unfold SelfWindow.endOffset pageSize at *
    omega
  · intro he
    rw [h.id_inj (live_mem.mp hv).1 (live_mem.mp hw).1 he]
    have hp := (h.live_shaped hw).pages
    unfold Contains SelfWindow.endOffset pageSize
    omega

theorem Inv.free (hw : w ∈ live s) :
    freeIova s.iovad (w.offset / pageSize) =
      ((live s).filter (fun v => v.id ≠ w.id)).map frames := by
  let p : SelfWindow → Bool := fun v =>
    decide ((frames v).pfnLo ≤ w.offset / pageSize ∧ w.offset / pageSize ≤ (frames v).pfnHi)
  have hp : ∀ v ∈ live s,p v = true ↔ Contains SelfWindow.offset SelfWindow.endOffset v w.offset := by
    intro v hv
    have haw := (h.live_shaped hw).aligned
    have hm : w.offset / pageSize * pageSize = w.offset := by
      unfold pageSize at *
      omega
    rw [decide_eq_true_eq,frames_hold (h.live_shaped hv).aligned,hm]
    rfl
  have her : freeIova s.iovad (w.offset / pageSize) = ((live s).eraseP p).map frames := by
    rw [freeIova,h.iovas,eraseP_map]
    rfl
  rw [her,h.disjoint.erase p hp]
  congr 1
  apply filter_congr
  intro v hv
  have hi := (hp v hv).trans (h.holds_first hv hw)
  by_cases he : v.id = w.id
  · simp [hi.mpr he,he]
  · have hpv : p v = false := Bool.eq_false_iff.mpr (fun ht => he (hi.mp ht))
    simp [hpv,he]

theorem Inv.update (hsm : ∀ w,(f w).id = w.id ∧ (f w).offset = w.offset ∧ (f w).nrPages = w.nrPages ∧
      (f w).offsetFreed = w.offsetFreed)
    (hls : ∀ w ∈ s.windows,w.id = n → (f w).listed = true → w.offsetFreed = false) :
    Inv { s with windows := updateSelf s.windows n f } := by
  let g : SelfWindow → SelfWindow := fun w => if w.id = n then f w else w
  have hg : ∀ w,(g w).id = w.id ∧ (g w).offset = w.offset ∧ (g w).nrPages = w.nrPages ∧
      (g w).offsetFreed = w.offsetFreed := by
    intro w
    simp only [g]
    split
    · exact hsm w
    · exact ⟨rfl,rfl,rfl,rfl⟩
  have hlv : live { s with windows := updateSelf s.windows n f } = (live s).map g := by
    simp only [live,updateSelf,List.filter_map]
    congr 1
    apply List.filter_congr
    intro w _
    exact congrArg (fun b => decide (b = false)) (hg w).2.2.2
  refine ⟨?_,?_,?_,?_⟩
  · rw [hlv,List.map_map]
    apply h.iovas.trans
    apply map_congr_left
    intro w _
    obtain ⟨_,ho,hn,_⟩ := hg w
    simp [comp_apply,frames,ho,hn]
  · rw [hlv]
    unfold Separate
    rw [pairwise_map]
    refine h.disjoint.imp ?_
    intro v w hd
    obtain ⟨_,hov,hnv,_⟩ := hg v
    obtain ⟨_,how,hnw,_⟩ := hg w
    simpa only [SelfWindow.endOffset,hov,hnv,how,hnw] using hd
  · intro w hw
    obtain ⟨v,hv,rfl⟩ := mem_map.mp hw
    obtain ⟨hi,ho,hn,hf⟩ := hg v
    have hs := h.shaped v hv
    have hk : (g v).id < s.nextId := by
      rw [hi]
      exact hs.known
    refine ⟨ho ▸ hs.aligned,hn ▸ hs.pages,hk,?_⟩
    intro hl
    refine hf.trans ?_
    by_cases he : v.id = n
    · exact hls v hv he (by rwa [if_pos he] at hl)
    · exact hs.listed (by rwa [if_neg he] at hl)
  · have hm : (updateSelf s.windows n f).map (·.id) = s.windows.map (·.id) := by
      rw [updateSelf,List.map_map]
      apply map_congr_left
      intro w _
      exact (hg w).1
    rw [hm]
    exact h.ids

theorem Inv.without (hw : w ∈ s.windows)
    (hl : windows.filter (fun v => v.offsetFreed = false) = (live s).filter (fun v => v.id ≠ w.id))
    (hs : ∀ v ∈ windows,Shaped s.nextId v) (hi : (windows.map (·.id)).Nodup) :
    Inv { s with iovad := scifFreeWindowOffset s.iovad w,windows := windows } := by
  refine ⟨?_,?_,hs,hi⟩
  · change scifFreeWindowOffset s.iovad w = (windows.filter _).map frames
    rw [hl,scifFreeWindowOffset]
    cases hf : w.offsetFreed with
    | false => exact h.free (live_mem.mpr ⟨hw,hf⟩)
    | true =>
      rw [if_pos rfl,h.iovas]
      congr 1
      refine (filter_eq_self.mpr ?_).symm
      intro v hv
      obtain ⟨hvm,hvf⟩ := live_mem.mp hv
      apply decide_eq_true
      intro he
      rw [h.id_inj hvm hw he,hf] at hvf
      cases hvf
  · change Separate _ _ (windows.filter _)
    rw [hl]
    exact h.disjoint.sublist filter_sublist

theorem Inv.destroy (hw : w ∈ s.windows) : Inv (scifDestroyWindow s w) := by
  refine h.without hw ?_ ?_ (h.ids.sublist (filter_sublist.map _))
  · exact filter_comm _ _ _
  · intro v hv
    exact h.shaped v (mem_filter.mp hv).1

theorem Inv.recvDel (hw : w ∈ s.windows) : Inv (scifRecvDelWindow s w) := by
  refine h.without hw ?_ ?_ ?_
  · simp only [live,updateSelf,List.filter_map,List.filter_filter]
    rw [← List.map_id (s.windows.filter (fun v => decide (v.id ≠ w.id) && decide (v.offsetFreed = false)))]
    have hf : s.windows.filter ((fun v : SelfWindow => decide (v.offsetFreed = false)) ∘
        fun v => if v.id = w.id then { v with
          unregState := .accepted,listed := false,offsetFreed := true }
          else v) =
        s.windows.filter (fun v => decide (v.id ≠ w.id) && decide (v.offsetFreed = false)) := by
      apply filter_congr
      intro v _
      by_cases he : v.id = w.id <;> simp [he]
    rw [hf]
    apply map_congr_left
    intro v hv
    have hne : v.id ≠ w.id := by
      have := (mem_filter.mp hv).2
      simp only [Bool.and_eq_true,decide_eq_true_eq] at this
      exact this.1
    rw [if_neg hne]
    rfl
  · intro v hv
    obtain ⟨u,hu,rfl⟩ := mem_map.mp hv
    have hs := h.shaped u hu
    split
    · exact { hs with listed := fun hl => by cases hl }
    · exact hs
  · have hm : (updateSelf s.windows w.id (fun v =>
        { v with unregState := .accepted,listed := false,offsetFreed := true })).map (·.id) =
        s.windows.map (·.id) := by
      rw [updateSelf,List.map_map]
      apply map_congr_left
      intro v _
      simp only [comp_apply]
      split <;> rfl
    rw [hm]
    exact h.ids

end

/-- `n` page frames, none of which is reserved. -/
structure Claimed (iovad : List Iova) (n : Int) (iova : Iova) : Prop where
  size : iova.pfnHi = iova.pfnLo + n - 1
  free : ∀ i ∈ iovad,isRangeOverlap i iova.pfnLo iova.pfnHi = false

theorem get_window_offset (hp : 0 < n) (hn : n < 2 ^ 31) (ha : AllocOk iovad n env)
    (hb : flags &&& scifMapFixed ≠ 0 → 0 ≤ offset ∧ offset + n * pageSize < 2 ^ 63)
    (hr : scifGetWindowOffset iovad flags offset n env = .ok iova) : Claimed iovad n iova := by
  unfold scifGetWindowOffset at hr
  split at hr
  · have hu : toU64 (offset / pageSize + n - 1) = offset / pageSize + n - 1 := by
      unfold toU64 pageSize at *
      omega
    simp only [hu] at hr
    split at hr
    · rename_i i hi
      cases hr
      obtain ⟨han,hi⟩ := ite_none_left_eq_some.mp hi
      obtain ⟨_,hi⟩ := ite_none_right_eq_some.mp hi
      cases hi
      refine ⟨rfl,?_⟩
      intro i him
      rw [Bool.eq_false_iff]
      intro ho
      exact han (any_eq_true.mpr ⟨i,him,ho⟩)
    · cases hr
  · split at hr
    · rename_i pfn hal
      cases hr
      have hu : toU64 n = n := by
        unfold toU64
        omega
      unfold AllocOk at ha
      rw [hu] at ha ⊢
      exact ⟨rfl,ha pfn hal⟩
    · cases hr

theorem Claimed.given_back (hc : Claimed iovad n iova) (hp : 0 < n) :
    freeIova (iova :: iovad) (iova.pfnLo * pageSize / pageSize) = iovad := by
  have hs := hc.size
  have hd : iova.pfnLo * pageSize / pageSize = iova.pfnLo := by
    unfold pageSize
    omega
  rw [hd,freeIova,eraseP_cons_of_pos]
  apply decide_eq_true
  omega

theorem Inv.create (h : Inv s) (hc : Claimed s.iovad n iova) (hp : 0 < n) :
    Inv (scifCreateWindow s iova n ok).2 := by
  cases ok with
  | false =>
    have hb := hc.given_back hp
    unfold scifCreateWindow
    simp only [Bool.false_eq_true,if_false,hb]
    exact h
  | true =>
    have hsz := hc.size
    have hfr := hc.free
    have ha : iova.pfnLo * pageSize % pageSize = 0 := by
      unfold pageSize
      omega
    have hf : frames ⟨s.nextId,iova.pfnLo * pageSize,n,.notInitiated,false,false⟩ = iova := by
      have hd : iova.pfnLo * pageSize / pageSize = iova.pfnLo := by
        unfold pageSize
        omega
      simp [frames,hd,← hsz]
    refine ⟨?_,?_,?_,?_⟩
    · change iova :: s.iovad = frames _ :: (live s).map frames
      rw [hf,h.iovas]
    · apply h.disjoint.cons
      intro w hw
      have hmm : frames w ∈ s.iovad := by
        rw [h.iovas]
        exact mem_map.mpr ⟨w,hw,rfl⟩
      have hno := of_decide_eq_false (hfr (frames w) hmm)
      have haw := (h.live_shaped hw).aligned
      simp only [frames] at hno
      simp only [SelfWindow.endOffset]
      unfold pageSize at *
      omega
    · intro w hw
      rcases mem_cons.mp hw with rfl | hw
      · exact ⟨ha,hp,Nat.lt_succ_self _,fun hl => by cases hl⟩
      · have hs := h.shaped w hw
        exact { hs with known := Nat.lt_succ_of_lt hs.known }
    · refine nodup_cons.mpr ⟨?_,h.ids⟩
      intro hm
      obtain ⟨w,hw,he⟩ := mem_map.mp hm
      have := (h.shaped w hw).known
      change w.id = s.nextId at he
      omega

theorem valid_args (hv : ¬ r.invalid = true) :
    (r.mapFlags &&& scifMapFixed ≠ 0 → 0 ≤ r.offset ∧ r.offset + r.len < 2 ^ 63) ∧ 0 < r.len ∧
      r.len % 4096 = 0 := by
  have hno := of_decide_eq_false (Bool.eq_false_iff.mpr hv)
  simp only [not_or] at hno
  obtain ⟨_,hfx,_,h0,_,hm⟩ := hno
  refine ⟨?_,by omega,by omega⟩
  intro hf
  have hok : ¬ badFixed r.offset r.len = true := fun hb => hfx ⟨hf,hb⟩
  have hr := of_decide_eq_false (Bool.eq_false_iff.mpr hok)
  omega

theorem page_count (h0 : 0 < r.len) (hm : r.len % 4096 = 0) (hl : r.len < 2 ^ 43) :
    toInt32 (r.len / 4096 : Nat) = (r.len / 4096 : Nat) ∧ (0 : Int) < (r.len / 4096 : Nat) ∧
      ((r.len / 4096 : Nat) : Int) * pageSize = r.len := by
  unfold toInt32 pageSize
  omega

theorem Inv.register (h : Inv s) (hl : r.len < 2 ^ 43)
    (ha : AllocOk s.iovad (toInt32 (r.len / 4096 : Nat)) env) : Inv (scifRegister s r env).2 := by
  unfold scifRegister
  split
  · exact h
  rename_i hv
  obtain ⟨hf,h0,hm⟩ := valid_args hv
  obtain ⟨hi,hp,hb⟩ := page_count h0 hm hl
  rw [hi] at ha ⊢
  split
  · rename_i iova hq
    have hc : Claimed s.iovad (r.len / 4096 : Nat) iova := by
      refine get_window_offset hp (by omega) ha ?_ hq
      rw [hb]
      exact hf
    split
    · exact h.create hc hp
    · rw [hc.given_back hp]
      exact h
  · split <;> exact h

theorem Inv.step (h : Inv s) (ha : Allowed s a) (hr : s.step a = some t) : Inv t := by
  cases a with
  | register r env =>
    obtain ⟨hal,hr⟩ := ite_none_right_eq_some.mp hr
    have ht := h.register ha hal
    rwa [some.inj hr] at ht
  | registerPinned p env =>
    obtain ⟨_,hr⟩ := ite_none_right_eq_some.mp hr
    have hp : p.invalid = true := ha
    rw [scifRegisterPinnedPages,if_pos hp] at hr
    exact some.inj hr ▸ h
  | insertLocal w =>
    obtain ⟨⟨hw,hf⟩,hr⟩ := ite_none_right_eq_some.mp hr
    cases hr
    refine h.update (fun v => ⟨rfl,rfl,rfl,rfl⟩) ?_
    intro v hv he _
    rw [h.id_inj hv hw he]
    exact hf
  | mark w state =>
    exact of_guard hr (fun _ => h.update (fun v => ⟨rfl,rfl,rfl,rfl⟩)
      (fun v hv _ hl => (h.shaped v hv).listed hl))
  | recvDel w => exact of_guard hr (fun hg => h.recvDel hg.1)
  | destroy w => exact of_guard hr (fun hg => h.destroy hg.1)

theorem Inv.init : Inv Space.init := by
  refine ⟨rfl,.nil,?_,nodup_nil⟩
  intro w hw
  cases hw

theorem addr_in_use (h : addrInUse ws offset expired = .failed (-eaddrinuse)) :
    ∃ w ∈ ws,w.listed = true ∧ w.offset ≤ offset ∧ offset < w.endOffset := by
  unfold addrInUse at h
  split at h
  · rename_i w hf
    have hp := find?_some hf
    simp only [decide_eq_true_eq] at hp
    exact ⟨w,mem_of_find?_eq_some hf,hp⟩
  · split at h <;> cases h

theorem create_not_in_use : (scifCreateWindow s iova n ok).1 ≠ .failed (-eaddrinuse) := by
  cases ok
  · simp [scifCreateWindow,enomem,eaddrinuse]
  · simp [scifCreateWindow]

theorem Inv.register_not_in_use (h : Inv s)
    (hd : ∀ w ∈ live s,w.endOffset ≤ r.offset ∨ r.offset + r.len ≤ w.offset) :
    (scifRegister s r env).1 ≠ .failed (-eaddrinuse) := by
  intro hr
  unfold scifRegister at hr
  split at hr
  · cases hr
  rename_i hv
  have hln := (valid_args hv).2.1
  split at hr
  · split at hr
    · exact create_not_in_use hr
    · cases hr
  split_ifs at hr with hne
  · obtain ⟨w,hw,hl,h1,h2⟩ := addr_in_use hr
    have := hd w (live_mem.mpr ⟨hw,(h.shaped w hw).listed hl⟩)
    omega
  · exact hne (Outcome.failed.inj hr)

/-- The live windows are disjoint, the reserved frames are theirs, and a request for free pages is
not refused as in use. -/
theorem registered_space_booked (as : List Act) (s : Space)
    (ha : Along Space.step Allowed Space.init as) (hr : exec Space.step Space.init as = some s) :
    Booked s ∧ ∀ a first last,Allowed s a → a.fixedRange = some (first,last) →
      (∀ w ∈ live s,w.endOffset ≤ first ∨ last ≤ w.offset) →
        a.outcome s ≠ some (.failed (-eaddrinuse)) := by
  have h : Inv s := exec_invariant (fun _ _ _ hi hok hs => hi.step hok hs) Inv.init ha hr
  refine ⟨h.booked,?_⟩
  intro a first last hal hf hd ho
  cases a with
  | register r env =>
    obtain ⟨_,hf⟩ := ite_none_right_eq_some.mp hf
    cases hf
    exact h.register_not_in_use hd (some.inj ho)
  | registerPinned p env =>
    have hp : p.invalid = true := hal
    simp only [Act.outcome,scifRegisterPinnedPages,if_pos hp] at ho
    cases ho
  | insertLocal | mark | recvDel | destroy => cases hf

def ready : Env := { alloc := none,mem := true,expired := true,peerDev := true,create := true }

def twoPages : RegisterArgs := { addr := 0,len := 8192,offset := 0,prot := 3,mapFlags := 0x10 }

def nextPages : RegisterArgs := { addr := 0,len := 8192,offset := 8192,prot := 3,mapFlags := 0x10 }

theorem next_pages_not_in_use :
    ∃ s,exec Space.step Space.init [.register twoPages ready] = some s ∧ Booked s ∧
      (Act.register nextPages ready).outcome s ≠ some (.failed (-eaddrinuse)) := by
  let s : Space := ⟨[⟨0,1⟩],[⟨0,0,2,.notInitiated,false,false⟩],1⟩
  have hs : exec Space.step Space.init [.register twoPages ready] = some s := rfl
  have hl : ∀ r : RegisterArgs,r.len = 8192 → r.len < 2 ^ 43 := by
    intro r hr
    omega
  obtain ⟨hb,hn⟩ := registered_space_booked [.register twoPages ready] s
    (Along.cons (hl twoPages rfl) hs trivial) hs
  exact ⟨s,hs,hb,hn (.register nextPages ready) 8192 16384 (hl nextPages rfl) rfl (by decide)⟩

/-- One pinned page takes 4096 page frames, and a fixed registration of the next page fails. -/
theorem pinned_page_takes_bytes :
    ∃ s,exec Space.step Space.init [.registerPinned ⟨1,1,0,0x10⟩ ready] = some s ∧
      (∀ w ∈ live s,w.offset = 0 ∧ w.endOffset = 4096) ∧ ¬ Booked s ∧
      (Act.registerPinned ⟨1,1,4096,0x10⟩ ready).fixedRange = some (4096,8192) ∧
      (Act.registerPinned ⟨1,1,4096,0x10⟩ ready).outcome s = some (.failed (-eaddrinuse)) := by
  let s : Space := ⟨[⟨0,4095⟩],[⟨0,0,1,.notInitiated,false,false⟩],1⟩
  have hp : ∀ w ∈ live s,w.offset = 0 ∧ w.endOffset = 4096 := by decide
  refine ⟨s,rfl,hp,fun h => ?_,rfl,by decide⟩
  obtain ⟨w,hw,_,hlt⟩ := (h.reserved 1).mp ⟨⟨0,4095⟩,mem_cons_self,by decide,by decide⟩
  rw [(hp w hw).2] at hlt
  exact absurd hlt (by decide)

end Mpss.Proofs.OffsetsBooked
