import Mathlib.Data.List.Nodup
import Mpss.Library.Records
import Mpss.Library.Runs
import Mpss.Vop.DevicePage

namespace Mpss.Proofs.DescriptorsApart
open Library.Bytes Library.Records Library.Runs Vop.DevicePage List Function Option

variable {m m' page page' argp : Page} {a d dd dc fuel i k need n : Nat}
  {ws : List (Nat × UInt8)} {v : Vdev}

theorem total_ge (m : Page) (d : Nat) : 24 ≤ micTotalDescSize m d := by
  simp only [micTotalDescSize,micAlignedDescSize,micDescSize,deviceDescSize,deviceCtrlSize]
  omega

theorem desc_le_aligned (m : Page) (d : Nat) :
    8 ≤ micDescSize m d ∧ micDescSize m d ≤ micAlignedDescSize m d := by
  simp only [micAlignedDescSize,micDescSize,deviceDescSize]
  omega

theorem rings_in_desc (m : Page) (d : Nat) : 8 + numVq m d * 24 ≤ micDescSize m d := by
  simp only [micDescSize,deviceDescSize,vqconfigSize]
  omega

section
variable (h : ∀ j,1 ≤ j → j < 4 → m' (d + j) = m (k + j))
include h

theorem desc_congr : micDescSize m' d = micDescSize m k := by
  simp [micDescSize,numVq,featureLen,configLen,h 1 (by decide) (by decide),h 2 (by decide)
    (by decide),h 3 (by decide) (by decide)]

theorem total_congr : micTotalDescSize m' d = micTotalDescSize m k := by
  simp [micTotalDescSize,micAlignedDescSize,desc_congr h]

end

theorem poke_outside (h : ∀ w ∈ ws,w.1 ≠ a) : poke m ws a = m a := by
  induction ws generalizing m with
  | nil => rfl
  | cons w ws ih =>
    obtain ⟨hw,hws⟩ := forall_mem_cons.mp h
    have hr := @ih (update m w.1 w.2) hws
    rw [update_of_ne hw.symm] at hr
    exact hr

theorem ring_addresses (hw : w ∈ ringAddresses dd n addr) : dd + 8 ≤ w.1 ∧ w.1 < dd + 8 + n * 24 := by
  obtain ⟨i,hi,hw⟩ := mem_flatMap.mp hw
  obtain ⟨j,hj,rfl⟩ := mem_map.mp hw
  have hi := mem_range.mp hi
  have hj := mem_range.mp hj
  simp only [micVqConfig,deviceDescSize,vqconfigSize]
  omega

theorem init_ctrl (hw : w ∈ vopInitDeviceCtrl dc) : dc + 8 ≤ w.1 ∧ w.1 < dc + 16 := by
  simp only [vopInitDeviceCtrl,mem_cons,not_mem_nil,or_false] at hw
  rcases hw with rfl | rfl | rfl | rfl | rfl | rfl | rfl <;> simp

/-- What an addition does: it takes a free entry and writes nothing outside it. -/
structure Added (page argp page' : Page) (v : Vdev) : Prop where
  slot : findSlot page (micTotalDescSize argp 0) MIC_DP_SIZE bootparamSize = some v.dd
  stop : v.stop = v.dd + micTotalDescSize argp 0
  outside : ∀ a,a < v.dd ∨ v.stop ≤ a → page' a = page a
  kind : type page' v.dd = type argp 0
  total : micTotalDescSize page' v.dd = micTotalDescSize argp 0
  small : micTotalDescSize argp 0 ≤ 272

theorem added (h : vopVirtioAddDevice page argp addr db = some (page',v)) :
    Added page argp page' v := by
  obtain ⟨hs,h⟩ := ite_none_left_eq_some.mp h
  obtain ⟨⟨page1,dd⟩,hc,heq⟩ := map_eq_some_iff.mp h
  cases heq
  unfold vopCopyDpEntry at hc
  split at hc
  · cases hc
  obtain ⟨slot,hsl,heq⟩ := map_eq_some_iff.mp hc
  cases heq
  obtain ⟨hge,hle⟩ := desc_le_aligned argp 0
  have hr := rings_in_desc argp 0
  have hh : ∀ j,1 ≤ j → j < 4 → blit page dd (update argp 0 0) (micDescSize argp 0)
    (dd + j) = argp (0 + j) := by
    intro j h1 h4
    rw [blit_at _ _ _ (by omega),update_of_ne (by omega),zero_add]
  set m := blit page dd (update argp 0 0) (micDescSize argp 0)
  have hal : micAlignedDescSize m dd = micAlignedDescSize argp 0 := by
    rw [micAlignedDescSize,desc_congr hh,← micAlignedDescSize]
  have hk : ∀ a,a < dd + 8 ∨ dd + micTotalDescSize argp 0 ≤ a → a ≠ dd →
      poke (poke (poke m
        (vopInitDeviceCtrl (dd + micAlignedDescSize argp 0))) (ringAddresses dd (numVq argp 0) addr))
        [(dd + micAlignedDescSize argp 0 + 13,db),(dd,type argp 0)] a =
      m a := by
    intro a ha hne
    simp only [micTotalDescSize,deviceCtrlSize] at ha
    rw [poke_outside,poke_outside,poke_outside]
    · intro w hw
      have := init_ctrl hw
      omega
    · intro w hw
      have := ring_addresses hw
      omega
    · intro w hw
      simp only [mem_cons,not_mem_nil,or_false] at hw
      rcases hw with rfl | rfl <;> simp <;> omega
  have hn : numVq (poke m
      (vopInitDeviceCtrl (dd + micAlignedDescSize argp 0))) dd = numVq argp 0 := by
    rw [numVq,poke_outside,hh 1 (by decide) (by decide),numVq]
    intro w hw
    have := init_ctrl hw
    omega
  simp only [hal,hn]
  refine ⟨hsl,?_,?_,?_,?_,?_⟩
  · simp [Vdev.stop,micTotalDescSize,add_assoc]
  · intro a ha
    simp only [Vdev.stop,deviceCtrlSize] at ha
    rw [hk a (by simp only [micTotalDescSize,deviceCtrlSize]; omega) (by omega)]
    apply blit_outside
    omega
  · exact update_self _ _ _
  · apply total_congr
    intro j h1 h4
    rw [hk (dd + j) (by omega) (by omega)]
    exact hh j h1 h4
  · simp only [micTotalDescSize,deviceCtrlSize,MIC_MAX_DESC_BLK_SIZE] at hs ⊢
    omega

/-- What a removal does: the type is `-1` and the sizes stay. -/
structure Deleted (page page' : Page) (v : Vdev) : Prop where
  outside : ∀ a,a < v.dd ∨ v.stop ≤ a → page' a = page a
  kind : type page' v.dd = removed
  total : micTotalDescSize page' v.dd = micTotalDescSize page v.dd

theorem deleted (hv : v.dd + 8 ≤ v.dc) : Deleted page (vopVirtioDelDevice page v) v := by
  have hs : ∀ w ∈ vopDevRemove v,w.1 = v.dd ∨ w.1 = v.dd + 4 ∨ v.dc + 8 ≤ w.1 ∧ w.1 < v.dc + 16 := by
    intro w hw
    simp only [vopDevRemove,mem_cons,not_mem_nil,or_false] at hw
    rcases hw with rfl | rfl | rfl | rfl | rfl | rfl | rfl <;> simp
  have hk : ∀ a,a ≠ v.dd → a ≠ v.dd + 4 → a < v.dc + 8 ∨ v.dc + 16 ≤ a →
    vopVirtioDelDevice page v a = page a := by
    intro a h0 h4 hc
    rw [vopVirtioDelDevice,poke_outside]
    · split
      · apply poke_outside
        intro w hw
        have := hs w hw
        omega
      · rfl
    · intro w hw
      rw [mem_singleton.mp hw]
      exact h0.symm
  refine ⟨?_,update_self _ _ _,?_⟩
  · intro a ha
    simp only [Vdev.stop,deviceCtrlSize] at ha
    apply hk <;> omega
  · apply total_congr
    intro j h1 h4
    apply hk <;> omega

/-- The entries that the search passes before it comes to a place. -/
inductive Passes (page : Page) : Nat → Nat → Prop
  | here {i : Nat} : Passes page i i
  | next {i k : Nat} (h0 : type page i ≠ 0) (hr : type page i ≠ removed)
    (h : Passes page (i + micTotalDescSize page i) k) : Passes page i k

theorem find_slot_passes (h : findSlot page need fuel i = some k) : Passes page i k := by
  induction fuel generalizing i with
  | zero => cases h
  | succ fuel ih =>
    rw [findSlot] at h
    split at h
    · split_ifs at h with hf
      · cases h
        exact .here
      · rw [not_or] at hf
        exact .next hf.1 hf.2 (ih h)
    · cases h

section
variable (hrw : Row (micTotalDescSize page) i recs fin) (hu : ∀ a ∈ recs,type page a ≠ 0)
  (hz : type page fin = 0)
include hrw hu hz

theorem find_slot (h : findSlot page need fuel i = some k) :
    k + need < MIC_DP_SIZE ∧ (k ∈ recs ∧ type page k = removed ∨ k = fin) := by
  induction fuel generalizing i recs with
  | zero => cases h
  | succ fuel ih =>
    rw [findSlot] at h
    split at h
    case isFalse => cases h
    cases recs with
    | nil =>
      have hfn : i = fin := hrw
      have he : type page i = 0 ∨ type page i = removed := .inl (by rw [hfn]; exact hz)
      rw [if_pos he] at h
      cases h
      exact ⟨by omega,.inr hfn⟩
    | cons a recs =>
      obtain ⟨rfl,hr⟩ := hrw
      obtain ⟨ha,hu'⟩ := forall_mem_cons.mp hu
      split_ifs at h with hf
      · cases h
        exact ⟨by omega,.inl ⟨mem_cons_self,hf.resolve_left ha⟩⟩
      · obtain ⟨hk,hpl⟩ := ih hr hu' h
        exact ⟨hk,hpl.imp_left fun hp => ⟨.tail _ hp.1,hp.2⟩⟩

theorem scan_row (hfn : fin < MIC_DP_SIZE) (hf : recs.length < fuel) :
    vopScanDevices page fuel i = recs.filter (fun a => type page a ≠ removed) := by
  induction recs generalizing fuel i with
  | nil =>
    have he : i = fin := hrw
    cases fuel with
    | zero => cases hf
    | succ fuel =>
      subst he
      rw [vopScanDevices,if_pos hfn,if_pos hz,filter_nil]
  | cons a recs ih =>
    have hb := hrw.bounds.2 a mem_cons_self
    obtain ⟨rfl,hrs⟩ := hrw
    obtain ⟨ha,hu'⟩ := forall_mem_cons.mp hu
    cases fuel with
    | zero => cases hf
    | succ fuel =>
      have hrc := ih hrs hu' (Nat.lt_of_succ_lt_succ hf)
      have hp : a < MIC_DP_SIZE := by omega
      rw [vopScanDevices,if_pos hp,if_neg ha,hrc]
      split_ifs with hr
      · rw [filter_cons_of_neg (by simp [hr])]
      · rw [filter_cons_of_pos (by simp [hr])]

end

/-- The page between two requests: entries one after the other, then zeros; those in use are the
devices. -/
structure Laid (s : State) (recs : List Nat) (fin : Nat) : Prop where
  row : Row (micTotalDescSize s.page) bootparamSize recs fin
  used : ∀ a ∈ recs,type s.page a ≠ 0
  zero : ∀ a,fin ≤ a → a < MIC_DP_SIZE → s.page a = 0
  room : fin < MIC_DP_SIZE
  nodup : (s.vdevs.map Vdev.dd).Nodup
  live : ∀ a,(∃ v ∈ s.vdevs,v.dd = a) ↔ a ∈ recs ∧ type s.page a ≠ removed
  stop : ∀ v ∈ s.vdevs,v.stop = v.dd + micTotalDescSize s.page v.dd

def At (s : State) (recs : List Nat) (fin k n : Nat) : Prop :=
  k ∈ recs ∧ n = micTotalDescSize s.page k ∨ k = fin

/-- A new device has a type of its own, and the first entry that was removed has its size. -/
def Allowed (s : State) : Act → Prop
  | .add argp _ _ =>
    type argp 0 ≠ 0 ∧ type argp 0 ≠ removed ∧
      ∀ i,Passes s.page bootparamSize i → type s.page i = removed → micTotalDescSize s.page i =
      micTotalDescSize argp 0
  | .remove _ => True

section
variable (h : Laid s recs fin)
include h

theorem Laid.mem (hv : v ∈ s.vdevs) : v.dd ∈ recs := ((h.live v.dd).mp ⟨v,hv,rfl⟩).1

theorem Laid.fin_not_mem : fin ∉ recs := by
  intro hm
  have hb := h.row.bounds.2 fin hm
  have hs := total_ge s.page fin
  omega

section
variable (hk : At s recs fin k n) (ho : ∀ a,a < k ∨ k + n ≤ a → page' a = s.page a)
  (hr : r ∈ recs) (hne : r ≠ k)
include hk ho hr hne

theorem Laid.others : ∀ a,r ≤ a → a < r + micTotalDescSize s.page r → page' a = s.page a := by
  intro a hra har
  apply ho
  rcases hk with ⟨hk,rfl⟩ | rfl
  · rcases h.row.disjoint hr hk with he | hd | hd
    · exact absurd he hne
    all_goals omega
  · have := (h.row.bounds.2 r hr).2
    omega

theorem Laid.others_head :
    micTotalDescSize page' r = micTotalDescSize s.page r ∧ type page' r = type s.page r := by
  have hsz := total_ge s.page r
  have hs := h.others hk ho hr hne
  refine ⟨total_congr fun j _ hj => hs _ (by omega) (by omega),hs _ (by omega) (by omega)⟩

end

theorem Laid.place (ha : Added s.page argp page' v)
    (hk : At s recs fin v.dd (micTotalDescSize argp 0)) (hf : ¬ ∃ w ∈ s.vdevs,w.dd = v.dd)
    (hm : ∀ a,a ∈ recs' ↔ a ∈ recs ∨ a = v.dd) (hkn : type argp 0 ≠ 0 ∧ type argp 0 ≠ removed)
    (hrw : Row (micTotalDescSize page') bootparamSize recs' fin') (hfn : fin ≤ fin')
    (hst : v.stop ≤ fin')
    (hrm : fin' < MIC_DP_SIZE) : Laid ⟨page',s.vdevs ++ [v]⟩ recs' fin' := by
  have hot : ∀ a,a < v.dd ∨ v.dd + micTotalDescSize argp 0 ≤ a → page' a = s.page a :=
    ha.stop ▸ ha.outside
  have hh : ∀ r ∈ recs,r ≠ v.dd → _ := fun r hr hne => h.others_head hk hot hr hne
  refine ⟨hrw,?_,?_,hrm,?_,?_,?_⟩
  · intro r hr
    by_cases hne : r = v.dd
    · rw [hne,ha.kind]
      exact hkn.1
    · have ho := ((hm r).mp hr).resolve_right hne
      rw [(hh r ho hne).2]
      exact h.used r ho
  · intro a hfa haz
    exact (ha.outside a (by omega)).trans (h.zero a (by omega) haz)
  · rw [map_append,map_singleton,nodup_append]
    refine ⟨h.nodup,nodup_singleton _,?_⟩
    intro a ha' b hb hab
    obtain ⟨w,hw,rfl⟩ := mem_map.mp ha'
    rw [mem_singleton.mp hb] at hab
    exact hf ⟨w,hw,hab⟩
  · intro a
    by_cases hne : a = v.dd
    · constructor
      · intro _
        exact ⟨(hm a).mpr (.inr hne),by rw [hne,ha.kind]; exact hkn.2⟩
      · intro _
        exact ⟨v,by simp,hne.symm⟩
    have hs : (∃ w ∈ s.vdevs ++ [v],w.dd = a) ↔ ∃ w ∈ s.vdevs,w.dd = a := by
      constructor
      · rintro ⟨w,hw,rfl⟩
        rcases mem_append.mp hw with hw | hw
        · exact ⟨w,hw,rfl⟩
        · exact absurd (by rw [mem_singleton.mp hw]) hne
      · rintro ⟨w,hw,rfl⟩
        exact ⟨w,mem_append_left _ hw,rfl⟩
    rw [hs,h.live a,hm a]
    constructor
    · rintro ⟨hr,ht⟩
      exact ⟨.inl hr,by rw [(hh a hr hne).2]; exact ht⟩
    · rintro ⟨hr,ht⟩
      have ho := hr.resolve_right hne
      rw [(hh a ho hne).2] at ht
      exact ⟨ho,ht⟩
  · intro w hw
    rcases mem_append.mp hw with hw | hw
    · have hne : w.dd ≠ v.dd := fun he => hf ⟨w,hw,he⟩
      rw [(hh w.dd (h.mem hw) hne).1]
      exact h.stop w hw
    · rw [mem_singleton.mp hw,ha.total]
      exact ha.stop

section
variable (ha : Added s.page argp page' v) (hok : Allowed s (.add argp addr db))
include ha hok

theorem Laid.slot :
    At s recs fin v.dd (micTotalDescSize argp 0) ∧ (¬ ∃ w ∈ s.vdevs,w.dd = v.dd) ∧
      v.dd + micTotalDescSize argp 0 < MIC_DP_SIZE := by
  obtain ⟨hrm,⟨hk,hr⟩ | hk⟩ := find_slot h.row h.used (h.zero fin le_rfl h.room) ha.slot
  · refine ⟨.inl ⟨hk,(hok.2.2 v.dd (find_slot_passes ha.slot) hr).symm⟩,?_,hrm⟩
    intro hw
    exact ((h.live v.dd).mp hw).2 hr
  · refine ⟨.inr hk,?_,hrm⟩
    intro hw
    exact h.fin_not_mem (hk ▸ ((h.live v.dd).mp hw).1)

theorem Laid.add : ∃ recs' fin',Laid ⟨page',s.vdevs ++ [v]⟩ recs' fin' := by
  obtain ⟨hat,hf,hrm⟩ := h.slot ha hok
  have ho : ∀ a,a < v.dd ∨ v.dd + micTotalDescSize argp 0 ≤ a → page' a = s.page a :=
    ha.stop ▸ ha.outside
  obtain ⟨hk,hs⟩ | hk := id hat
  · refine ⟨recs,fin,h.place ha hat hf ?_ ⟨hok.1,hok.2.1⟩ (h.row.congr ?_) le_rfl ?_ h.room⟩
    · intro a
      constructor
      · exact .inl
      · rintro (hr | rfl)
        · exact hr
        · exact hk
    · intro r hr
      by_cases hne : r = v.dd
      · rw [hne,ha.total,hs]
      · exact (h.others_head hat ho hr hne).1
    · rw [ha.stop,hs]
      exact (h.row.bounds.2 v.dd hk).2
  · refine ⟨recs ++ [v.dd],v.stop,h.place ha hat hf ?_ ⟨hok.1,hok.2.1⟩ ?_ ?_ le_rfl ?_⟩
    · simp
    · rw [row_append]
      refine ⟨fin,h.row.congr fun r hr => ?_,?_⟩
      · exact (h.others_head hat ho hr fun he => h.fin_not_mem (hk ▸ he ▸ hr)).1
      · refine ⟨hk,?_⟩
        show fin + micTotalDescSize page' fin = v.stop
        rw [ha.stop,← hk,ha.total]
    · rw [ha.stop,hk]
      exact Nat.le_add_right _ _
    · rw [ha.stop]
      exact hrm

end

theorem Laid.remove (hv : v ∈ s.vdevs) :
    Laid ⟨vopVirtioDelDevice s.page v,s.vdevs.erase v⟩ recs fin := by
  have hst := h.stop v hv
  have hdc : v.dd + 8 ≤ v.dc := by
    have := total_ge s.page v.dd
    simp only [Vdev.stop,deviceCtrlSize] at hst
    omega
  have hd : Deleted s.page (vopVirtioDelDevice s.page v) v := deleted hdc
  have hat : At s recs fin v.dd (micTotalDescSize s.page v.dd) := .inl ⟨h.mem hv,rfl⟩
  have hot : ∀ a,a < v.dd ∨ v.dd + micTotalDescSize s.page v.dd ≤ a →
    vopVirtioDelDevice s.page v a = s.page a :=
    hst ▸ hd.outside
  have hh : ∀ r ∈ recs,r ≠ v.dd → _ := fun r hr hne => h.others_head hat hot hr hne
  have hs : ∀ r ∈ recs,micTotalDescSize (vopVirtioDelDevice s.page v) r =
    micTotalDescSize s.page r := by
    intro r hr
    by_cases hne : r = v.dd
    · rw [hne,hd.total]
    · exact (hh r hr hne).1
  have ho : ∀ w ∈ s.vdevs.erase v,w ∈ s.vdevs ∧ w.dd ≠ v.dd := by
    intro w hw
    have hol := mem_of_mem_erase hw
    refine ⟨hol,fun he => ?_⟩
    have hsm := inj_on_of_nodup_map h.nodup hol hv he
    rw [hsm] at hw
    exact (List.Nodup.not_mem_erase (List.Nodup.of_map _ h.nodup)) hw
  refine ⟨h.row.congr hs,?_,?_,h.room,?_,?_,?_⟩
  · intro r hr
    by_cases hne : r = v.dd
    · rw [hne,hd.kind]
      decide
    · rw [(hh r hr hne).2]
      exact h.used r hr
  · intro a hfa haz
    have := (h.row.bounds.2 v.dd (h.mem hv)).2
    exact (hd.outside a (by omega)).trans (h.zero a hfa haz)
  · exact h.nodup.sublist (erase_sublist.map _)
  · intro a
    by_cases hne : a = v.dd
    · constructor
      · rintro ⟨w,hw,rfl⟩
        exact absurd hne (ho w hw).2
      · rintro ⟨-,ht⟩
        exact absurd (by rw [hne]; exact hd.kind) ht
    constructor
    · rintro ⟨w,hw,rfl⟩
      obtain ⟨hr,ht⟩ := (h.live w.dd).mp ⟨w,(ho w hw).1,rfl⟩
      exact ⟨hr,by rw [(hh w.dd hr hne).2]; exact ht⟩
    · rintro ⟨hr,ht⟩
      rw [(hh a hr hne).2] at ht
      obtain ⟨w,hw,rfl⟩ := (h.live a).mpr ⟨hr,ht⟩
      exact ⟨w,(mem_erase_of_ne fun he => hne (by rw [he])).mpr hw,rfl⟩
  · intro w hw
    rw [hs w.dd (h.mem (ho w hw).1)]
    exact h.stop w (ho w hw).1

end

def Inv (s : State) : Prop := ∃ recs fin,Laid s recs fin

theorem Inv.step (hs : Inv s) (hok : Allowed s act) (h : step s act = some s') : Inv s' := by
  obtain ⟨recs,fin,hl⟩ := hs
  cases act with
  | add argp addr db =>
    obtain ⟨⟨page',v⟩,ha,heq⟩ := map_eq_some_iff.mp h
    cases heq
    exact hl.add (added ha) hok
  | remove v =>
    rw [Vop.DevicePage.step] at h
    split at h
    · rename_i hv
      cases h
      exact ⟨recs,fin,hl.remove hv⟩
    · cases h

/-- The devices lie apart in the page, and the card finds them. -/
structure Sound (s : State) : Prop where
  inside : ∀ v ∈ s.vdevs,bootparamSize ≤ v.dd ∧ v.stop ≤ MIC_DP_SIZE
  size : ∀ v ∈ s.vdevs,v.stop = v.dd + micTotalDescSize s.page v.dd
  apart : s.vdevs.Pairwise (fun v w => v.stop ≤ w.dd ∨ w.stop ≤ v.dd)
  scan : ∀ fuel,MIC_DP_SIZE ≤ fuel → (vopScanDevices s.page fuel bootparamSize).Nodup ∧
    ∀ i,i ∈ vopScanDevices s.page fuel bootparamSize ↔ ∃ v ∈ s.vdevs,v.dd = i

theorem Laid.sound (h : Laid s recs fin) : Sound s := by
  refine ⟨?_,h.stop,?_,?_⟩
  · intro v hv
    have hb := h.row.bounds.2 v.dd (h.mem hv)
    have hr := h.room
    rw [h.stop v hv]
    exact ⟨hb.1,by omega⟩
  · refine (pairwise_map.mp h.nodup).imp_of_mem fun hv hw hne => ?_
    rw [h.stop _ hv,h.stop _ hw]
    exact (h.row.disjoint (h.mem hv) (h.mem hw)).resolve_left hne
  · intro fuel hf
    have hl := h.row.length_le fun a _ => total_ge s.page a
    have hr := h.room
    have hs : vopScanDevices s.page fuel bootparamSize = _ :=
      scan_row h.row h.used (h.zero fin le_rfl h.room) h.room (by omega)
    have hn : recs.Nodup := h.row.apart.imp fun {a b} hab => by
      have := total_ge s.page a
      omega
    rw [hs]
    refine ⟨hn.filter _,fun i => ?_⟩
    rw [h.live i,mem_filter]
    simp

theorem Laid.add_frame (h : Laid s recs fin) (hok : Allowed s (.add argp addr db))
    (hs : step s (.add argp addr db) = some s')
    (hv : v ∈ s.vdevs) : ∀ a,v.dd ≤ a → a < v.stop → s'.page a = s.page a := by
  obtain ⟨⟨page',w⟩,had,heq⟩ := map_eq_some_iff.mp hs
  cases heq
  have ha := added had
  obtain ⟨hat,hf,-⟩ := h.slot ha hok
  rw [h.stop v hv]
  exact h.others hat (ha.stop ▸ ha.outside) (h.mem hv) fun he => hf ⟨v,hv,he⟩

/-- In allowed runs the devices lie apart in the page, and the card's scan meets each once. -/
theorem descriptors_apart (page : Page)
    (hzero : ∀ a,bootparamSize ≤ a → a < MIC_DP_SIZE → page a = 0) (acts : List Act)
    (s : State) (hrun : exec step ⟨page,[]⟩ acts = some s) (hok : Along step Allowed ⟨page,[]⟩ acts) :
    Sound s ∧ ∀ argp addr db s',Allowed s (.add argp addr db) →
      step s (.add argp addr db) = some s' → ∀ v ∈ s.vdevs,∀ a,v.dd ≤ a → a < v.stop → s'.page a = s.page a := by
  have hst : Inv ⟨page,[]⟩ :=
    ⟨[],bootparamSize,rfl,forall_mem_nil _,hzero,by decide,nodup_nil,by simp,forall_mem_nil _⟩
  obtain ⟨recs,fin,hl⟩ := exec_invariant (fun _ _ _ hs ha h => hs.step ha h) hst hok hrun
  exact ⟨hl.sound,fun argp addr db s' ha hs v hv => hl.add_frame ha hs hv⟩

theorem Passes.free (h : Passes page i k) (hf : type page i = 0 ∨ type page i = removed) : k = i := by
  cases h with
  | here => rfl
  | next h0 hr _ => exact absurd hf (not_or.mpr ⟨h0,hr⟩)

def plainDesc (kind configLen : UInt8) : Page := update (update (fun _ => 0) 0 kind) 3 configLen

def addPlain (kind configLen : UInt8) : Act := .add (plainDesc kind configLen) (fun _ _ => 0) 5

def replaceFirst : List Act := [addPlain 1 8,addPlain 2 8,.remove ⟨24,40⟩,addPlain 3 8]

theorem replaced_device_sound :
    ∃ s,exec step ⟨fun _ => 0,[]⟩ replaceFirst = some s ∧ s.vdevs.length = 2 ∧ Sound s := by
  refine ⟨_,rfl,by decide,(descriptors_apart (fun _ => 0) (fun _ _ _ => rfl) replaceFirst _ rfl ?_).1⟩
  refine .cons ⟨by decide,by decide,fun i hp hr => ?_⟩ rfl
    (.cons ⟨by decide,by decide,fun i hp hr => ?_⟩ rfl
    (.cons trivial rfl (.cons ⟨by decide,by decide,fun i hp hr => ?_⟩ rfl trivial)))
  · exact absurd hr (by change (0 : UInt8) ≠ removed; decide)
  · cases hp with
    | here => exact absurd hr (by decide)
    | next _ _ hp =>
      rw [hp.free (by decide)] at hr
      exact absurd hr (by decide)
  · rw [hp.free (by decide)]
    decide

/-- A larger device in a removed one's entry runs into the next; behind a smaller one the scan
stops. -/
theorem reused_entries_collide :
    (∃ s,exec step ⟨fun _ => 0,[]⟩ [addPlain 1 0,addPlain 2 0,.remove ⟨24,32⟩,addPlain 3 24] =
    some s ∧ ¬ Sound s) ∧
    (∃ s,exec step ⟨fun _ => 0,[]⟩ [addPlain 1 24,addPlain 2 0,.remove ⟨24,56⟩,addPlain 3 0] =
    some s ∧ ¬ Sound s) ∧
    ∃ s,exec step ⟨fun _ => 0,[]⟩ [addPlain 0 0,addPlain 2 0] = some s ∧ ¬ Sound s := by
  refine ⟨⟨_,rfl,fun h => ?_⟩,⟨_,rfl,fun h => ?_⟩,_,rfl,fun h => ?_⟩
  · exact absurd h.apart (by decide)
  · have hm := ((h.scan MIC_DP_SIZE le_rfl).2 72).mpr ⟨⟨72,80⟩,by decide,rfl⟩
    exact absurd hm (by decide)
  · exact absurd h.apart (by decide)

end Mpss.Proofs.DescriptorsApart
