import Mpss.Library.Runs
import Mpss.Micscif.UnregisterWindow

namespace Mpss.Proofs.UnregisteredOnce
open Library.Runs Micscif.UnregisterWindow Option

variable {w v : Window} {nrPages : Nat}

/-- The count is not negative and never above the pages and the waiting threads, so that the `int`
of the driver holds it below 2^31 of them. The window is removed at most once; exactly once when the
peer has answered and no thread is left. -/
structure Once (nrPages : Nat) (w : Window) : Prop where
  nonneg : 0 ≤ w.refCount
  bounded : w.refCount ≤ nrPages + w.waiting
  most : w.removed ≤ 1
  least : w.unregState = .completed ∨ w.registered = false → w.waiting = 0 → w.removed = 1 ∧
    w.onList = false

/-- After the acknowledgement a thread goes on only while the registration is still counted, or as
the last one that waited. -/
def Allowed (w : Window) : Act → Prop
  | .enter => w.unregState = .completed → w.registered = true
  | .wake => w.unregState = .completed → w.registered = true ∨ w.waiting = 1
  | _ => True

/-- Each waiting thread and the registration are counted. -/
structure Counted (nrPages : Nat) (w : Window) : Prop where
  count : w.refCount = (if w.registered then nrPages else 0 : Nat) + w.waiting
  held : w.unregState = .idle ∨ w.unregState = .inProgress → w.registered = true
  waited : w.unregState = .inProgress ∨ w.unregState = .completed ∧ w.registered = true → 0 < w.waiting

structure Inv (nrPages : Nat) (w : Window) : Prop extends Counted nrPages w where
  removed : w.removed = if w.refCount = 0 then 1 else 0
  listed : w.onList = decide (w.refCount ≠ 0)

theorem Inv.once (h : Inv nrPages w) : Once nrPages w := by
  have hc := h.count
  refine ⟨by omega,by split at hc <;> omega,by rw [h.removed]; split <;> decide,fun hs hw => ?_⟩
  have hr : w.registered = false := by
    rcases hs with hs | hs
    · by_contra hr
      have := h.waited (.inr ⟨hs,Bool.eq_true_of_not_eq_false hr⟩)
      omega
    · exact hs
  have hz : w.refCount = 0 := by simp [hc,hr,hw]
  rw [h.removed,h.listed,hz]
  decide

theorem Counted.all (h : Counted nrPages w) (hr : w.registered = true) :
    w.refCount = nrPages + w.waiting := by
  rw [h.count,hr]
  rfl

theorem Inv.live (h : Inv nrPages w) (hne : w.refCount ≠ 0) : w.removed = 0 ∧ w.onList = true := by
  rw [h.removed,h.listed,if_neg hne]
  exact ⟨rfl,decide_eq_true hne⟩

theorem Counted.removeUnused (h : Counted nrPages w) (hl : w.removed = 0 ∧ w.onList = true) :
    Inv nrPages (removeUnused w) := by
  unfold Micscif.UnregisterWindow.removeUnused
  split_ifs with hz
  · exact { h with removed := by simp [hl.1,hz],listed := by simp [hz] }
  · exact { h with removed := by simp [hl.1,hz],listed := by simp [hl.2,hz] }

theorem putPages_counted (hc : w.refCount = nrPages + w.waiting)
    (hs : w.unregState = .completed ∨ w.unregState = .failed) :
    Counted nrPages (putPages nrPages w) := by
  refine ⟨?_,fun h => ?_,fun h => ?_⟩
  · simp [putPages,hc]
  all_goals rcases hs with hs | hs <;> simp_all [putPages]

theorem Inv.step (hn : 0 < nrPages) (h : Inv nrPages w) (ha : Allowed w a)
    (hs : step nrPages w a = some v) : Inv nrPages v := by
  have hc := h.count
  cases a with
  | enter =>
    obtain ⟨hl,hs⟩ := ite_none_right_eq_some.mp hs
    have hne : w.refCount ≠ 0 := by simpa [h.listed] using hl
    have hlv := h.live hne
    cases hst : w.unregState with
    | idle | inProgress =>
      have hr := h.held (by simp [hst])
      simp only [hst] at hs
      cases hs
      have hp : w.refCount + 1 ≠ 0 := by omega
      exact ⟨⟨by simp only [hc]; push_cast; omega,fun _ => hr,fun _ => Nat.succ_pos _⟩,
        by simp [hlv.1,hp],by simp [hlv.2,hp]⟩
    | completed =>
      simp only [hst] at hs
      cases hs
      rw [finish,if_pos ⟨hst,hne⟩]
      exact (putPages_counted (h.all (ha hst)) (.inl hst)).removeUnused hlv
    | failed =>
      simp only [hst] at hs
      cases hs
      rw [finish,if_neg (by simp [hst])]
      exact h.toCounted.removeUnused hlv
  | wake =>
    obtain ⟨⟨hw,hst⟩,hs⟩ := ite_none_right_eq_some.mp hs
    have hlv := h.live (by omega)
    cases hs
    unfold finish
    by_cases hd : w.unregState = .completed
    · by_cases hr : w.registered = true
      · have hal := h.all hr
        rw [if_pos ⟨hd,by dsimp only; omega⟩]
        refine Counted.removeUnused (putPages_counted ?_ (.inl hd)) hlv
        dsimp only
        omega
      · have hw := (ha hd).resolve_left hr
        rw [if_neg (by simp [hc,hr,hw])]
        refine Counted.removeUnused ⟨?_,?_,?_⟩ hlv
        all_goals simp [hc,hr,hw,hd]
    · rw [if_neg (fun hf => hd hf.1)]
      refine Counted.removeUnused ⟨?_,h.held,fun hf => ?_⟩ hlv
      · simp only [hc]
        omega
      · exact absurd hf (by simp [hst,hd])
  | ack =>
    exact of_guard hs (fun hst => { h with held := by simp,waited := fun _ => h.waited (.inl hst) })
  | nack => exact of_guard hs (fun hst => { h with held := by simp,waited := by simp })
  | munmap =>
    obtain ⟨⟨hst,hr⟩,hs⟩ := ite_none_right_eq_some.mp hs
    have hal := h.all hr
    have hne : w.refCount ≠ 0 := by omega
    rw [if_pos hne] at hs
    cases hs
    exact (putPages_counted hal (.inr hst)).removeUnused (h.live hne)

/-- Where threads go on after the acknowledgement only as `Allowed` says, the window is released
once. -/
theorem unregistered_once (hn : 0 < nrPages) (as : List Act) (w : Window)
    (ha : Along (step nrPages) Allowed (init nrPages) as)
    (he : exec (step nrPages) (init nrPages) as = some w) :
    Once nrPages w := by
  have hi : Inv nrPages (init nrPages) :=
    ⟨⟨by simp [init],fun _ => rfl,by simp [init]⟩,by simp [init,ne_of_gt hn],by simp [init,ne_of_gt hn]⟩
  exact (exec_invariant (fun _ _ _ h ha hs => h.step hn ha hs) hi ha he).once

theorem two_threads_once : ∃ w,exec (step 2) (init 2) [.enter,.enter,.ack,.wake,.wake] = some w ∧
    w.waiting = 0 ∧ Once 2 w := by
  refine ⟨_,rfl,rfl,unregistered_once Nat.zero_lt_two [.enter,.enter,.ack,.wake,.wake] _ ?_ rfl⟩
  refine .cons nofun rfl (.cons nofun rfl (.cons trivial rfl ?_))
  exact .cons (fun _ => .inl rfl) rfl (.cons (fun _ => .inr rfl) rfl trivial)

/-- The second of three threads takes the registration away once more. -/
theorem third_thread_negative : ∃ w,exec (step 2) (init 2)
    [.enter,.enter,.enter,.ack,.wake,.wake,.wake] = some w ∧ w.refCount = -4 ∧ w.removed = 0 :=
  ⟨_,rfl,rfl,rfl⟩

end Mpss.Proofs.UnregisteredOnce
