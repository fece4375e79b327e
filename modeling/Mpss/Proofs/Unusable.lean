import Mathlib.Data.List.Nodup
import Mpss.Library.Runs
import Mpss.Proofs.WindowQuery
import Mpss.Scif.Unregister

namespace Mpss.Proofs.Unusable
open Library.Runs Library.Segments WindowQuery List Option
open Scif.Mapping hiding Act
open Scif.Transfer Scif.Unregister Scif.Window

abbrev InWindows (ws : List ScifWindow) (first last : Int) : Prop :=
  Covers ScifWindow.offset ScifWindow.endOffset (fun _ => True) ws first last

theorem query_in_windows (hq : scifQueryWindow ws req = .ok r) :
    InWindows ws req.offset (req.offset + req.nrBytes) := by
  intro x hx hxl
  obtain ⟨w,hw,_,hc⟩ := query_window_covers hq x hx hxl
  exact ⟨w,hw,trivial,hc⟩

/-- A copy that succeeds stays inside the windows of both lists. -/
theorem rma_copy_in_windows (h : scifRmaCopy reg remote lo len ro flags dir err = 0) :
    InWindows reg lo (lo + len) ∧ InWindows remote ro (ro + len) := by
  unfold scifRmaCopy at h
  split at h
  · cases h
  simp only at h
  split at h
  · rename_i e hq
    exact absurd h (query_window_error hq)
  rename_i r hq
  split at h
  · rename_i e hq'
    exact absurd h (query_window_error hq')
  · rename_i r' hq'
    exact ⟨query_in_windows hq,query_in_windows hq'⟩

theorem InWindows.append (h : InWindows ws first mid) (h' : InWindows ws mid last) :
    InWindows ws first last := by
  intro x hx hxl
  by_cases hm : x < mid
  · exact h x hx hm
  · exact h' x (by omega) hxl

theorem transfer_in_windows (h : scifTransfer reg remote lo len ro flags dir err = 0) :
    InWindows reg lo (lo + len) ∧ InWindows remote ro (ro + len) := by
  fun_induction scifTransfer reg remote lo len ro flags dir err with
  | case1 lo len ro hb e he => exact absurd h he
  | case2 lo len ro hb e he ih =>
    have hz : e = 0 := not_not.mp he
    obtain ⟨h1,h2⟩ := rma_copy_in_windows hz
    obtain ⟨h3,h4⟩ := ih h
    have hlo : lo + scifMaxUnalignedBufSize + ((len - scifMaxUnalignedBufSize : Nat) : Int) = lo +
      len := by omega
    have hro : ro + scifMaxUnalignedBufSize + ((len - scifMaxUnalignedBufSize : Nat) : Int) = ro +
      len := by omega
    rw [hlo] at h3
    rw [hro] at h4
    exact ⟨h1.append h3,h2.append h4⟩
  | case3 lo len ro hb => exact rma_copy_in_windows h

theorem prog_signal_in_windows (h : scifProgSignal ws offset err = 0) :
    InWindows ws offset (offset + 8) := by
  unfold scifProgSignal at h
  split at h
  · rename_i e hq
    exact absurd h (query_window_error hq)
  · rename_i r hq
    exact query_in_windows hq

theorem sig_resp_zero (h : sigResp err = 0) : err = 0 := by
  by_contra hne
  rw [sigResp,if_neg hne] at h
  exact absurd h (by decide)

theorem both_zero {e f : Int} (h : (if e ≠ 0 then e else f) = 0) : e = 0 ∧ f = 0 := by
  split_ifs at h with hne
  · exact absurd h hne
  · exact ⟨not_not.mp hne,h⟩

theorem passed_check {p : Prop} [Decidable p] {e f : Int} (he : e ≠ 0)
    (h : (if p then e else f) = 0) : f = 0 := by
  split at h
  · exact absurd h he
  · exact h

theorem send_fence_signal_in_windows (h : scifSendFenceSignal l loff roff flags e1 e2 = 0)
    (hs : flags &&& scifSignalRemote ≠ 0) : InWindows l.peerRemoteRegList loff (loff + 8) := by
  have h2 := (both_zero h).2
  rw [if_pos hs] at h2
  exact prog_signal_in_windows (sig_resp_zero h2)

/-- The range that a fence signal writes in the endpoint's own windows is registered, on the
node that writes it. -/
theorem fence_signal_in_windows (h : scifFenceSignal l loff roff flags e1 e2 = 0) :
    (flags &&& scifFenceInitPeer ≠ 0 → flags &&& scifSignalRemote ≠ 0 →
    InWindows l.peerRemoteRegList loff (loff + 8)) ∧
    (¬ flags &&& scifFenceInitPeer ≠ 0 → flags &&& scifSignalLocal ≠ 0 →
      InWindows l.regList loff (loff + 8)) := by
  iterate 6
    replace h := passed_check (by decide) h
  refine ⟨?_,?_⟩
  · intro hp hs
    rw [if_pos hp] at h
    exact send_fence_signal_in_windows h hs
  · intro hp hs
    rw [if_neg hp] at h
    have h1 := (both_zero h).1
    rw [if_pos hs] at h1
    exact prog_signal_in_windows h1

theorem mmap_in_windows (h : (scifMmap p v remap).1 = 0) :
    InWindows p.windows v.offset (v.offset + v.nrPages * pageSize) := by
  have hl : v.req.offset + (v.req.nrBytes : Int) = v.offset + v.nrPages * pageSize := by
    simp only [Vma.req,pageSize]
    omega
  unfold scifMmap at h
  split at h
  · rename_i w hq
    exact hl ▸ query_in_windows hq
  · cases h
  · rename_i e hq
    exact absurd h (query_window_error hq)

theorem get_pages_in_windows (h : (scifGetPages p offset len mem).1 = 0) :
    InWindows p.windows offset (offset + len) := by
  unfold scifGetPages at h
  split at h
  · cases h
  split at h
  · rename_i w hq
    exact query_in_windows hq
  · cases h
  · rename_i e hq
    exact absurd h (query_window_error hq)

/-- A call that returns 0 lies inside windows of the list that it looks in. -/
theorem call_in_windows {c : Call} (h : c.result s = 0) (hr : c.range s = some (first,last,l)) :
    InWindows l first last := by
  cases c with
  | readfrom lo len ro flags remote err | writeto lo len ro flags remote err =>
    cases hr
    exact (transfer_in_windows h).1
  | fenceSignal loff roff flags remote reg e1 e2 =>
    obtain ⟨hpr,hsl⟩ := fence_signal_in_windows h
    unfold Call.range at hr
    simp only at hr
    split at hr
    · rename_i hp
      obtain ⟨hs,hr⟩ := ite_none_right_eq_some.mp hr
      cases hr
      exact hpr hp hs
    · rename_i hp
      obtain ⟨hs,hr⟩ := ite_none_right_eq_some.mp hr
      cases hr
      exact hsl hp hs
  | peerMmap v remap =>
    cases hr
    exact mmap_in_windows h
  | peerGetPages offset len mem =>
    cases hr
    exact get_pages_in_windows h
  | peerReadfrom lo len ro flags reg err | peerWriteto lo len ro flags reg err =>
    cases hr
    exact (transfer_in_windows h).2

theorem call_list {c : Call} (hr : c.range s = some (first,last,l)) :
    l = s.regList ∨ l = s.peer.windows := by
  cases c with
  | fenceSignal loff roff flags remote reg e1 e2 =>
    unfold Call.range at hr
    simp only at hr
    split at hr
    · split at hr
      · cases hr
        exact .inr rfl
      · cases hr
    · split at hr
      · cases hr
        exact .inl rfl
      · cases hr
  | readfrom | writeto =>
    cases hr
    exact .inl rfl
  | peerMmap | peerGetPages | peerReadfrom | peerWriteto =>
    cases hr
    exact .inr rfl

def span (w : ScifWindow) : Nat × Int × Int := (w.id,w.offset,w.nrPages)

/-- The windows of the first list are those of the second, some of them taken off. -/
def Of (l ws : List ScifWindow) : Prop := (l.map span).Sublist (ws.map span)

theorem Of.refl : Of l l := List.Sublist.refl _

theorem Of.trans (h : Of l m) (h' : Of m ws) : Of l ws := List.Sublist.trans h h'

theorem of_same (h : l.map span = m.map span) : Of l m := by
  unfold Of
  rw [h]

theorem of_filter : Of (l.filter p) l := filter_sublist.map span

theorem of_update {id : Nat} (f : ScifWindow → ScifWindow) (hf : ∀ w,span (f w) = span w)
    (l : List ScifWindow) : Of (updateWindow l id f) l := by
  apply of_same
  rw [updateWindow,List.map_map]
  apply map_congr_left
  intro w _
  simp only [Function.comp_apply]
  split
  · exact hf w
  · rfl

theorem Of.cons (h : Of l m) (hw : span w = span v) : Of (w :: l) (v :: m) := by
  unfold Of at h ⊢
  rw [map_cons,map_cons,hw]
  exact h.cons_cons (span v)

theorem Of.skip (h : Of l m) (v : ScifWindow) : Of l (v :: m) := List.Sublist.cons (span v) h

theorem of_unregister : Of (listUnregister offset endReq send l err).2.1 l := by
  fun_induction listUnregister offset endReq send l err with
  | case1 err | case2 w ws err hb => exact .refl
  | case3 w ws err hb hs err' ws' sent heq ih => exact Of.cons (by rwa [heq] at ih) rfl
  | case4 w ws err hb hs hp | case5 w ws err hb hs hp he => exact .refl
  | case6 w ws err hb hs hp he hn err' ws' sent heq hsn ih
  | case7 w ws err hb hs hp he hn err' ws' sent heq hsn ih
  | case8 w ws err hb hs hp he hn err' ws' sent heq ih =>
    exact Of.cons (by rwa [heq] at ih) rfl

theorem of_scif_unregister : Of (scifUnregister l offset len send).2.1 l := by
  unfold scifUnregister
  split
  · exact .refl
  · exact of_unregister

theorem of_bump (loopOffset left : Int) : Of (bumpMapped l loopOffset left) l := by
  induction l generalizing loopOffset left with
  | nil => exact .refl
  | cons w l ih =>
    rw [bumpMapped]
    split
    · exact Of.cons .refl rfl
    · exact (ih _ _).cons rfl

theorem of_munmap_loop (loopOffset left : Int) : Of (munmapLoop l loopOffset left).1 l := by
  induction l generalizing loopOffset left with
  | nil => exact .refl
  | cons w l ih =>
    rw [munmapLoop]
    have hr : Of (if left - loopNrPages w loopOffset left = 0 then (l,[]) else
        munmapLoop l (loopOffset + loopNrPages w loopOffset left * pageSize)
          (left - loopNrPages w loopOffset left)).1 l := by
      split
      · exact .refl
      · exact ih _ _
    simp only
    split
    · exact hr.skip w
    · exact hr.cons rfl

theorem Of.behind (h : Of m (l.dropWhile p)) : Of (l.takeWhile p ++ m) l := by
  have hs : l.map span = (l.takeWhile p).map span ++ (l.dropWhile p).map span := by
    rw [← map_append,takeWhile_append_dropWhile]
  unfold Of at h ⊢
  rw [map_append,hs]
  exact (List.Sublist.refl _).append h

theorem of_mmap : Of (scifMmap p v remap).2.windows p.windows := by
  unfold scifMmap
  split
  · split
    · exact Of.behind (of_bump _ _)
    · exact .refl
  all_goals exact .refl

theorem of_munmap : Of (scifMunmap p v).windows p.windows := by
  unfold scifMunmap
  split
  · exact Of.behind (of_munmap_loop _ _)
  · exact .refl

theorem of_add (id : Nat) (l : List ScifWindow) : Of (updateWindow l id (addMapped n)) l :=
  of_update (addMapped n) (fun _ => rfl) l

theorem of_get_pages : Of (scifGetPages p offset len mem).2.windows p.windows := by
  unfold scifGetPages
  split
  · exact .refl
  split
  · split
    · exact of_add _ _
    · exact .refl
  all_goals exact .refl

theorem of_put_pages : Of (scifPutPages p r).windows p.windows := by
  unfold scifPutPages
  simp only
  split
  · exact (of_filter).trans (of_add _ _)
  · exact of_add _ _

theorem of_recv_unreg : Of (scifRecvUnreg p recv).windows p.windows := by
  have hm : ∀ id,Of (updateWindow p.windows id (fun w => { w with unregState := .requested }))
      p.windows := by
    intro id
    apply of_update
    intro w
    rfl
  unfold scifRecvUnreg
  simp only
  split
  · split
    · exact (of_filter).trans (hm _)
    · exact hm _
  · exact .refl

/-- Every window of the system is one of the windows registered at the start. -/
structure Inv (ws : List ScifWindow) (s : Sys) : Prop where
  own : Of s.regList ws
  peer : Of s.peer.windows ws
  gone : ∀ g ∈ s.gone,span g ∈ ws.map span

theorem Of.mem (h : Of l ws) (hw : w ∈ l) : span w ∈ ws.map span := h.subset (mem_map.mpr ⟨w,hw,rfl⟩)

theorem recv_unreg_step (hr : Sys.step s (.recvUnreg n) = some t) :
    ∃ recv,recv ∈ s.peer.windows ∧ t.peer = scifRecvUnreg s.peer recv ∧ t.regList = s.regList ∧
      t.gone = s.gone := by
  obtain ⟨_,hr⟩ := ite_none_right_eq_some.mp hr
  split at hr
  · rename_i recv hf
    obtain ⟨u,hu,rfl⟩ := map_eq_some_iff.mp hr
    obtain ⟨q,hq,rfl⟩ := map_eq_some_iff.mp hu
    obtain ⟨_,hq⟩ := ite_none_right_eq_some.mp hq
    cases hq
    exact ⟨recv,mem_of_find?_eq_some hf,rfl,rfl,rfl⟩
  · cases hr

theorem of_call {c : Call} : Of (c.peer s).windows s.peer.windows := by
  cases c with
  | peerMmap v remap => exact of_mmap
  | peerGetPages offset len mem => exact of_get_pages
  | _ => exact .refl

section
variable (h : Inv ws s)
include h

theorem Inv.peer_step (hw : ∀ q,s.peer.step a = some q → Of q.windows s.peer.windows)
    (hr : s.peerStep a = some t) : Inv ws t := by
  obtain ⟨q,hq,rfl⟩ := map_eq_some_iff.mp hr
  exact ⟨h.own,(hw q hq).trans h.peer,h.gone⟩

theorem Inv.unregister (hr : s.step (.unregister offset len send) = some t) : Inv ws t := by
  cases hr
  refine ⟨(of_scif_unregister).trans h.own,h.peer,?_⟩
  intro g hg
  split at hg
  · rcases mem_append.mp hg with hg | hg
    · exact h.own.mem (mem_filter.mp hg).1
    · exact h.gone g hg
  · exact h.gone g hg

theorem Inv.recv_unreg (hr : s.step (.recvUnreg n) = some t) : Inv ws t := by
  obtain ⟨recv,_,hp,ho,hg⟩ := recv_unreg_step hr
  refine ⟨ho ▸ h.own,?_,hg ▸ h.gone⟩
  rw [hp]
  exact (of_recv_unreg).trans h.peer

theorem Inv.recv_owner (hr : s.step (.recvOwner m) = some t) : Inv ws t := by
  obtain ⟨_,hr⟩ := ite_none_right_eq_some.mp hr
  cases m with
  | deleteWindow id =>
    cases hr
    exact ⟨(of_filter).trans h.own,h.peer,h.gone⟩
  | usedWindow id =>
    cases hr
    refine ⟨Of.trans ?_ h.own,h.peer,h.gone⟩
    apply of_update
    intro w
    rfl

theorem Inv.step (hr : s.step a = some t) : Inv ws t := by
  cases a with
  | unregister offset len send => exact h.unregister hr
  | recvUnreg id => exact h.recv_unreg hr
  | recvOwner m => exact h.recv_owner hr
  | peerSplit v n =>
    refine h.peer_step ?_ hr
    intro q hq
    obtain ⟨_,hq⟩ := ite_none_right_eq_some.mp hq
    cases hq
    exact .refl
  | peerMunmap v =>
    refine h.peer_step ?_ hr
    intro q hq
    obtain ⟨_,hq⟩ := ite_none_right_eq_some.mp hq
    cases hq
    exact of_munmap
  | peerPutPages r =>
    refine h.peer_step ?_ hr
    intro q hq
    obtain ⟨_,hq⟩ := ite_none_right_eq_some.mp hq
    cases hq
    exact of_put_pages
  | call c =>
    cases hr
    exact ⟨h.own,(of_call).trans h.peer,h.gone⟩

end

theorem reachable_inv (hr : exec Sys.step (Sys.init ws) as = some s) : Inv ws s := by
  have hs : ∀ s a t,Inv ws s → True → s.step a = some t → Inv ws t := fun _ _ _ h _ hr => h.step hr
  have hi : Inv ws (Sys.init ws) :=
    ⟨.refl,.refl,by simp [Sys.init]⟩
  exact exec_invariant hs hi (Along.always (fun _ _ => trivial) _ as) hr

theorem span_contains (h : span w = span v) :
    Contains ScifWindow.offset ScifWindow.endOffset w x ↔
      Contains ScifWindow.offset ScifWindow.endOffset v x := by
  simp only [span,Prod.mk.injEq] at h
  simp [Contains,ScifWindow.endOffset,h]

theorem same_window (ho : Ordered ws) (hw : span w ∈ ws.map span) (hv : span v ∈ ws.map span)
    (hxw : Contains ScifWindow.offset ScifWindow.endOffset w x)
    (hxv : Contains ScifWindow.offset ScifWindow.endOffset v x) : w.id = v.id := by
  obtain ⟨a,ha,haw⟩ := mem_map.mp hw
  obtain ⟨b,hb,hbv⟩ := mem_map.mp hv
  have hab : a = b := ho.unique ha hb ((span_contains haw).mpr hxw) ((span_contains hbv).mpr hxv)
  have heq : span w = span v := by rw [← haw,← hbv,hab]
  exact (Prod.mk.inj heq).1

/-- The unregistered windows that the call's range meets have left the list it looks in. -/
def LeftList (s : Sys) (c : Call) : Prop :=
  ∀ first last l,c.range s = some (first,last,l) → ∀ g ∈ c.met s,∀ w ∈ l,w.id ≠ g.id

theorem Inv.met_fails (h : Inv ws s) (ho : Ordered ws) (hl : LeftList s c)
    (hm : c.met s ≠ []) : c.result s ≠ 0 := by
  intro hz
  obtain ⟨g,hg⟩ := exists_mem_of_ne_nil _ hm
  cases hr : c.range s with
  | none => simp [Call.met,hr] at hg
  | some range =>
    obtain ⟨first,last,l⟩ := range
    have hlf := hl first last l hr g hg
    simp only [Call.met,hr,mem_filter,decide_eq_true_eq] at hg
    obtain ⟨hgn,_,h1,h2,h3⟩ := hg
    obtain ⟨a,ha,hag⟩ := mem_map.mp (h.gone g hgn)
    have hp : g.offset < g.endOffset := by
      have hc : Contains ScifWindow.offset ScifWindow.endOffset a a.offset := ⟨by omega,ho.1 a ha⟩
      have := (span_contains hag).mp hc
      unfold Contains at this
      omega
    obtain ⟨w,hw,_,hxw⟩ := call_in_windows hz hr (max first g.offset) (by omega) (by omega)
    have hxg : Contains ScifWindow.offset ScifWindow.endOffset g (max first g.offset) :=
      ⟨by omega,by omega⟩
    have hmm : span w ∈ ws.map span := by
      rcases call_list hr with rfl | rfl
      · exact h.own.mem hw
      · exact h.peer.mem hw
    exact hlf w hw (same_window ho hmm (h.gone g hgn) hxw hxg)

/-- The areas stay, and so does each window with mapped pages. -/
def MappingsKept (p q : Peer) : Prop :=
  q.vmas = p.vmas ∧ ∀ w ∈ p.windows,w.mappedPages ≠ 0 → ∃ v ∈ q.windows,span v = span w ∧
    v.mappedPages = w.mappedPages

theorem recv_unreg_keeps (hid : (p.windows.map (·.id)).Nodup) (ho : Ordered p.windows) :
    MappingsKept p (scifRecvUnreg p recv) := by
  unfold scifRecvUnreg
  simp only
  split
  · rename_i u hq
    obtain ⟨_,pre,post,hr,hf⟩ := query_found ho hq
    cases hr
    have hu : u ∈ p.windows := hf.list ▸ mem_append_right pre mem_cons_self
    have hk : ∀ w ∈ p.windows,∃ v ∈ updateWindow p.windows u.id
        (fun w => { w with unregState := .requested }),span v = span w ∧
          v.mappedPages = w.mappedPages := by
      intro w hw
      refine ⟨_,mem_map.mpr ⟨w,hw,rfl⟩,?_⟩
      split <;> exact ⟨rfl,rfl⟩
    split_ifs with hz
    · refine ⟨rfl,?_⟩
      intro w hw hne
      obtain ⟨v,hv,hs,hm⟩ := hk w hw
      refine ⟨v,mem_filter.mpr ⟨hv,?_⟩,hs,hm⟩
      have hvw : v.id = w.id := (Prod.mk.inj hs).1
      have hwu : w.id ≠ u.id := by
        intro he
        have := inj_on_of_nodup_map hid hw hu he
        rw [this] at hne
        exact hne hz
      rw [hvw]
      exact decide_eq_true hwu
    · exact ⟨rfl,fun w hw _ => hk w hw⟩
  · exact ⟨rfl,fun w hw _ => ⟨w,hw,rfl,rfl⟩⟩

theorem Of.ids (h : Of l ws) (hid : (ws.map (·.id)).Nodup) : (l.map (·.id)).Nodup := by
  have hf : ∀ m : List ScifWindow,(m.map span).map Prod.fst = m.map (·.id) := by
    intro m
    rw [List.map_map]
    rfl
  rw [← hf] at hid ⊢
  exact hid.sublist (h.map Prod.fst)

theorem Of.ordered (h : Of l ws) (ho : Ordered ws) : Ordered l := by
  have hs : ∀ m : List ScifWindow,Ordered m ↔
      Apart (fun x : Nat × Int × Int => x.2.1) (fun x => x.2.1 + x.2.2 * pageSize) (m.map span) := by
    intro m
    simp only [Apart,List.pairwise_map,List.forall_mem_map]
    rfl
  rw [hs] at ho ⊢
  exact ho.sublist h

/-- After `scif_unregister` no call on a range that meets the window succeeds once it has left the
list the call looks in. -/
theorem unregistered_window_unusable (ws : List ScifWindow) (ho : Ordered ws)
    (hid : (ws.map (·.id)).Nodup) (as : List Act) (s : Sys)
    (hr : exec Sys.step (Sys.init ws) as = some s) :
    (∀ c : Call,LeftList s c → c.met s ≠ [] → c.result s ≠ 0) ∧
      ∀ n t,s.step (.recvUnreg n) = some t → MappingsKept s.peer t.peer := by
  have h := reachable_inv hr
  refine ⟨fun c hl hm => h.met_fails ho hl hm,?_⟩
  intro n t ht
  obtain ⟨recv,_,hp,_,_⟩ := recv_unreg_step ht
  rw [hp]
  exact recv_unreg_keeps (h.peer.ids hid) (h.peer.ordered ho)

def onePage : ScifWindow := ⟨1,0,1,3,0,.notInitiated⟩

def unregisterDone : List Act :=
  [.unregister 0 4096 (fun _ => 0),.recvUnreg 1,.recvOwner (.deleteWindow 1)]

def readPage : Call := .readfrom 0 64 0 0 [onePage] (fun _ => 0)

theorem read_after_delete_fails :
    ∃ s,exec Sys.step (Sys.init [onePage]) unregisterDone = some s ∧ readPage.met s ≠ [] ∧
      readPage.result s ≠ 0 := by
  let s : Sys := ⟨[],⟨[],[],[],[1],[1],0⟩,[],[],[onePage]⟩
  have hs : exec Sys.step (Sys.init [onePage]) unregisterDone = some s := rfl
  have hm : readPage.met s ≠ [] := by decide
  have hl : LeftList s readPage := by
    intro first last l hr g _ w hw
    cases hr
    cases hw
  have hf := (unregistered_window_unusable [onePage] ⟨by decide,by decide⟩ (by decide)
    unregisterDone s hs).1 readPage hl hm
  exact ⟨s,hs,hm,hf⟩

/-- The owner can still read from the page right after the call, and the peer can map it again where
it is mapped. -/
theorem unregistered_page_still_used :
    (∃ s,exec Sys.step (Sys.init [onePage]) [.unregister 0 4096 (fun _ => 0)] = some s ∧
      readPage.met s ≠ [] ∧ readPage.result s = 0) ∧
    (∃ s,exec Sys.step (Sys.init [onePage])
        [.call (.peerMmap ⟨0,1,1⟩ true),.unregister 0 4096 (fun _ => 0),.recvUnreg 1] = some s ∧
      (Call.peerMmap ⟨0,1,1⟩ true).met s ≠ [] ∧ (Call.peerMmap ⟨0,1,1⟩ true).result s = 0) := by
  refine ⟨⟨_,rfl,by decide,?_⟩,⟨_,rfl,by decide,by decide⟩⟩
  unfold Call.result scifReadfrom scifTransfer
  decide

/-- In every run a transfer, signal, mapping or pin that succeeds stays inside windows registered at
the start. -/
theorem successful_calls_registered (as : List Act)
    (hr : exec Sys.step (Sys.init ws) as = some s) (c : Call)
    (hz : c.result s = 0) (hc : c.range s = some (first,last,l)) : InWindows ws first last := by
  intro x hx hl
  have h := reachable_inv hr
  obtain ⟨w,hw,_,hxw⟩ := call_in_windows hz hc x hx hl
  have hm : span w ∈ ws.map span := by
    rcases call_list hc with rfl | rfl
    · exact h.own.mem hw
    · exact h.peer.mem hw
  obtain ⟨a,ha,haw⟩ := mem_map.mp hm
  exact ⟨a,ha,trivial,(span_contains haw).mpr hxw⟩

def nextPage : ScifWindow := { onePage with id := 2,offset := 4096 }

/-- Both pages are unregistered while the second is mapped, and the peer handles both requests. -/
def mappedThroughout : List Act :=
  [.call (.peerMmap ⟨1,1,1⟩ true),.unregister 0 8192 (fun _ => 0),.recvUnreg 1,.recvUnreg 2,
    .recvOwner (.deleteWindow 1)]

theorem mapped_page_registered :
    ∃ s,exec Sys.step (Sys.init [onePage,nextPage]) mappedThroughout = some s ∧ s.regList.length =
      1 ∧ (Call.peerMmap ⟨1,1,1⟩ true).result s = 0 ∧ InWindows [onePage,nextPage] 4096 8192 :=
  ⟨_,rfl,by decide,by decide,
    successful_calls_registered mappedThroughout rfl (.peerMmap ⟨1,1,1⟩ true) (by decide) rfl⟩

end Mpss.Proofs.Unusable
