import Mpss.Library.Runs
import Mpss.Micscif.PinPages

namespace Mpss.Proofs.PinsUndone

open Library.Runs Micscif.PinPages

def nothing (vm : Int) : Pins := ⟨fun _ => false,fun _ => 0,vm⟩

/-- One reference on each page of the range after a success, none after a failure, and the pinned
page count to match. -/
def Undone (nrPages : Nat) (ulimit : Bool) (vm : Int) (r : Bool × Pins) : Prop :=
  (∀ i,r.2.refs i = if r.1 ∧ i < nrPages then 1 else 0) ∧
    r.2.pinnedVm = if r.1 ∧ ulimit then vm + nrPages else vm

/-- How many pages the attempt pins, behind its limit check. -/
def reach (ulimit : Bool) (a : Attempt nrPages) : Nat := if ulimit && !a.granted then 0 else a.pinned

/-- The array as a rolled back first attempt leaves it: the entries are still there. -/
def stale (n : Nat) (vm : Int) : Pins := { nothing vm with filled := fun i => decide (i < n) }

theorem stale_zero (vm : Int) : stale 0 vm = nothing vm := by simp [stale,nothing]

theorem pins_rolled (nrPages : Nat) (ulimit : Bool) (n : Nat) (vm : Int) :
    addVm ulimit (-nrPages) (getUserPages n (addVm ulimit nrPages (stale m vm))) = getUserPages n
    (stale m vm) := by
  cases ulimit <;> simp [addVm,getUserPages,stale,nothing]

theorem pins_put (n : Nat) (vm : Int) : putPages n (getUserPages n (nothing vm)) = stale n vm := by
  simp only [putPages,getUserPages,stale,nothing,Pins.mk.injEq]
  refine ⟨by simp,?_,trivial⟩
  funext i
  by_cases hi : i < n <;> simp [hi]

theorem last_undone (b : Attempt nrPages) (vm : Int) (hm : m ≤ nrPages) :
    Undone nrPages ulimit vm (attempt nrPages ulimit b (fun p => (false,putPages nrPages p))
      (stale m vm)) ↔ (reach ulimit b < nrPages → m ≤ reach ulimit b) := by
  unfold attempt reach
  split
  · have hr : ∀ i,(putPages nrPages (stale m vm)).refs i = if i < m then -1 else 0 := by
      intro i
      by_cases hi : i < m <;> simp [putPages,stale,nothing,hi]
      omega
    refine ⟨?_,?_⟩
    · intro h _
      have := h.1 0
      grind
    · intro h
      refine ⟨?_,by simp [putPages,stale,nothing]⟩
      intro i
      grind
  · dsimp only
    split_ifs with hb
    · refine ⟨fun _ hlt => absurd hb (ne_of_lt hlt),fun _ => ?_⟩
      cases ulimit <;> simp [Undone,getUserPages,addVm,stale,nothing,hb]
    rw [pins_rolled]
    have hr : ∀ i,(putPages nrPages (getUserPages b.pinned (stale m vm))).refs i =
        if b.pinned ≤ i ∧ i < m then -1 else 0 := by
      intro i
      simp only [putPages,getUserPages,stale,nothing]
      grind
    refine ⟨?_,?_⟩
    · intro h _
      have := h.1 b.pinned
      grind
    · intro h
      refine ⟨?_,by simp [putPages,getUserPages,stale,nothing]⟩
      intro i
      grind

theorem pins_undone (ulimit upgrade : Bool) (a b : Attempt nrPages) (vm : Int) :
    Undone nrPages ulimit vm (scifPinPages nrPages ulimit upgrade a b (nothing vm)) ↔
      (upgrade = true → reach ulimit a < nrPages → reach ulimit b < nrPages →
        reach ulimit a ≤ reach ulimit b) := by
  cases upgrade with
  | false =>
    have h : _ ↔ (reach ulimit a < nrPages → 0 ≤ reach ulimit a) :=
      last_undone a vm (Nat.zero_le nrPages)
    simpa [scifPinPages,stale_zero] using h
  | true =>
    unfold scifPinPages attempt
    by_cases hg : (ulimit && !a.granted) = true
    · rw [if_pos hg,reach,if_pos hg]
      simp [Undone,putPages,nothing]
    have hr : reach ulimit a = a.pinned := if_neg hg
    rw [if_neg hg,hr]
    dsimp only
    split
    · rename_i ha
      refine ⟨fun _ _ hlt => absurd ha (ne_of_lt hlt),fun _ => ?_⟩
      cases ulimit <;> simp [Undone,getUserPages,addVm,nothing,ha]
    · have hle := a.pinned.is_le
      rw [if_pos rfl,← stale_zero,pins_rolled,stale_zero,pins_put]
      refine (last_undone b vm hle).trans ⟨fun h _ _ hb => h hb,fun h hb => h rfl (by omega) hb⟩

/-- The pages after a success: an entry and a reference for each page of the range. -/
structure Full (nrPages : Nat) (p : Pins) : Prop where
  filled : ∀ i < nrPages,p.filled i = true
  refs : ∀ i,p.refs i = if i < nrPages then 1 else 0

theorem attempt_full (hr : (roll (getUserPages b.pinned (stale m vm))).1 = true →
      Full nrPages (roll (getUserPages b.pinned (stale m vm))).2)
    (h : (attempt nrPages ulimit b roll (stale m vm)).1 = true) :
    Full nrPages (attempt nrPages ulimit b roll (stale m vm)).2 := by
  unfold attempt at *
  dsimp only at *
  rw [pins_rolled] at *
  split_ifs at * with hg hb
  · rw [hb]
    exact ⟨by simp +contextual [getUserPages],by simp [getUserPages,addVm,stale,nothing]⟩
  · exact hr h

theorem pins_full (h : (scifPinPages nrPages ulimit upgrade a b (nothing vm)).1 = true) :
    Full nrPages (scifPinPages nrPages ulimit upgrade a b (nothing vm)).2 := by
  rw [← stale_zero] at *
  refine attempt_full (fun hr => ?_) h
  rw [stale_zero,pins_put] at *
  split_ifs at *
  exact attempt_full nofun hr

theorem Full.put (h : Full nrPages p) (i : Nat) : (putPages nrPages p).refs i = 0 := by
  by_cases hi : i < nrPages
  · simp [putPages,h.refs,hi,h.filled i hi]
  · simp [putPages,h.refs,hi]

/-- A window is built only while the count stays an `int`. -/
def Allowed (nrPages : Nat) (s : Pages) : Use → Prop
  | .register => nrPages * (s.holders + 1) < 2 ^ 31
  | .release => True

structure Held (nrPages : Nat) (p : Pins) (s : Pages) : Prop where
  count : s.refCount = nrPages * s.holders
  small : nrPages * s.holders < 2 ^ 31
  once : s.destroyed = if s.holders = 0 then 1 else 0
  pins : s.pins = if s.holders = 0 then putPages nrPages p else p

theorem s32_small (h0 : 0 ≤ n) (h : n < 2 ^ 31) : s32 n = n := by
  unfold s32
  rw [Int.bmod_eq_of_le] <;> omega

theorem pinned_held (hi : nrPages < 2 ^ 31) (p : Pins) : Held nrPages p (pinned nrPages p) :=
  ⟨by simp [pinned],by simpa [pinned] using hi,rfl,rfl⟩

theorem use_held (hn : 0 < nrPages) (s : Pages) (u : Use) (t : Pages) (h : Held nrPages p s)
    (ha : Allowed nrPages s u) (hu : use nrPages s u = some t) : Held nrPages p t := by
  cases u with
  | register =>
    obtain ⟨h0,hu⟩ := Option.ite_none_left_eq_some.mp hu
    cases hu
    have hne : s.holders ≠ 0 := fun he => h0 (by rw [h.count,he]; rfl)
    have hsm : s.refCount + nrPages = (nrPages * (s.holders + 1) : Nat) := by
      rw [h.count]
      push_cast
      rw [mul_add,mul_one]
    refine ⟨?_,ha,by simp [h.once,hne],by simp [h.pins,hne]⟩
    rw [hsm,s32_small (Int.natCast_nonneg _) (by exact_mod_cast ha)]
    rfl
  | release =>
    obtain ⟨h0,hu⟩ := Option.ite_none_left_eq_some.mp hu
    cases hu
    obtain ⟨k,hk⟩ := Nat.exists_eq_succ_of_ne_zero h0
    have hc := h.count
    have hs := h.small
    have ho : s.destroyed = 0 := by rw [h.once,if_neg h0]
    have hp : s.pins = p := by rw [h.pins,if_neg h0]
    rw [hk,Nat.mul_succ] at hs
    have hsb : s.refCount - nrPages = (nrPages * k : Nat) := by
      rw [hc,hk]
      push_cast
      rw [mul_add,mul_one]
      omega
    rw [hsb,s32_small (Int.natCast_nonneg _) (by omega),hk,Nat.succ_sub_one]
    have hsk := (Nat.le_add_right _ _).trans_lt hs
    cases k with
    | zero => refine ⟨?_,hsk,?_,?_⟩ <;> simp [micscifDestroyPinnedPages,ho,hp]
    | succ k =>
      rw [if_neg (by simp; omega)]
      exact ⟨by push_cast; rfl,hsk,by simp [ho],by simp [hp]⟩

/-- The pages have been destroyed once when nobody holds them, and not before; as long as they are
held each one has its reference, and none afterwards. -/
def Owned (nrPages : Nat) (s : Pages) : Prop :=
  s.destroyed = (if s.holders = 0 then 1 else 0) ∧
    ∀ i,s.pins.refs i = if s.holders ≠ 0 ∧ i < nrPages then 1 else 0

/-- Pages of a first attempt that the failing second one does not reach are dropped twice; pages
that stay pinned once, with their last holder. -/
theorem pins_dropped_once (ulimit upgrade : Bool) (a b : Attempt nrPages) (vm : Int)
    (hn : 0 < nrPages) (hi : nrPages < 2 ^ 31) :
    let r := scifPinPages nrPages ulimit upgrade a b (nothing vm)
    (Undone nrPages ulimit vm r ↔
      (upgrade = true → reach ulimit a < nrPages → reach ulimit b < nrPages →
        reach ulimit a ≤ reach ulimit b)) ∧
    (r.1 = true → ∀ us s,Along (use nrPages) (Allowed nrPages) (pinned nrPages r.2) us →
      exec (use nrPages) (pinned nrPages r.2) us = some s → Owned nrPages s) := by
  refine ⟨pins_undone ulimit upgrade a b vm,?_⟩
  intro hr us s ha he
  have h := exec_invariant (use_held hn) (pinned_held hi _) ha he
  refine ⟨h.once,fun i => ?_⟩
  rw [h.pins]
  split_ifs with h0
  all_goals simp_all [(pins_full hr).put,(pins_full hr).refs]

/-- The second attempt pins both pages; they are registered, and given up by the window and their
owner. -/
theorem two_pages_dropped_once :
    ∃ p s,scifPinPages 2 true true ⟨true,1⟩ ⟨true,2⟩ (nothing 0) = (true,p) ∧
    Undone 2 true 0 (true,p) ∧
      exec (use 2) (pinned 2 p) [.register,.release,.release] = some s ∧ s.holders = 0 ∧
      Owned 2 s := by
  have h := pins_dropped_once true true (⟨true,1⟩ : Attempt 2) ⟨true,2⟩ 0 (by decide) (by decide)
  refine ⟨_,_,rfl,h.1.mpr (by decide),rfl,rfl,h.2 rfl [.register,.release,.release] _ ?_ rfl⟩
  exact .cons (by decide : 2 * 2 < 2 ^ 31) rfl (.cons trivial rfl (.cons trivial rfl trivial))

/-- One of two pages is pinned for writing, none for reading, and its reference is dropped twice. -/
theorem page_dropped_twice :
    (scifPinPages 2 false true ⟨true,1⟩ ⟨true,0⟩ (nothing 0)).1 = false ∧
      (scifPinPages 2 false true ⟨true,1⟩ ⟨true,0⟩ (nothing 0)).2.refs 0 = -1 := by decide

end Mpss.Proofs.PinsUndone
