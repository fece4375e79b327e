import Mpss.Library.Runs
import Mpss.Micscif.Nm

namespace Mpss.Proofs.ActivityCount
open Library.Runs Micscif.Nm

/-- Awake the count is the number of threads counted, asleep or stopped it has the idle bit besides;
a device that is cleaned up gets the bit when no thread is left. -/
structure Exact (s : Activity) : Prop where
  awake : s.sdState = .running → s.scifRefCnt = s.counted
  idle : s.sdState = .sleeping ∨ s.sdState = .stopped ∧ s.cleaning = false →
    s.scifRefCnt = s.counted + scifNodeIdle
  either : s.scifRefCnt = s.counted ∨ s.scifRefCnt = s.counted + scifNodeIdle
  unused : s.counted = 0 → s.scifRefCnt = 0 ∨ s.scifRefCnt = scifNodeIdle
  quiet : ∀ t,step s .remove = some t → t.sdState = .sleeping → s.sdState ≠ .sleeping → s.counted = 0

/-- No thread gets the lock of a stopped device, a count below 0 is the idle bit alone, and a `long`
counts the threads. -/
def Allowed (s : Activity) : Act → Prop
  | .inc => s.counted + 1 < 2 ^ 63
  | .incLocked _ => s.sdState ∉ [.stopped,.stopping,.init] ∧ s.counted + 1 < 2 ^ 63
  | .restore => s.scifRefCnt = scifNodeIdle
  | _ => True

def Phase (s : Activity) : Prop :=
  s.sdState = .running ∧ s.cleaning = false ∧ s.scifRefCnt = s.counted ∨
  s.sdState = .sleeping ∧ s.cleaning = false ∧ s.scifRefCnt = s.counted + scifNodeIdle ∨
  s.sdState = .stopped ∧ (s.scifRefCnt = s.counted + scifNodeIdle ∨ s.cleaning = true ∧
    s.scifRefCnt = s.counted)

structure Inv (s : Activity) : Prop where
  phase : Phase s
  all : s.uncounted = 0
  few : s.counted < 2 ^ 63

theorem Inv.either (h : Inv s) :
    s.scifRefCnt = s.counted ∨ s.scifRefCnt = s.counted + scifNodeIdle := by
  obtain ⟨_,_,hc⟩ | ⟨_,_,hc⟩ | ⟨_,hc | ⟨_,hc⟩⟩ := h.phase
  · exact .inl hc
  · exact .inr hc
  · exact .inr hc
  · exact .inl hc

theorem Inv.exact (h : Inv s) : Exact s := by
  have he := h.either
  have hp := h.phase
  simp only [Phase,scifNodeIdle] at hp he
  refine ⟨?_,?_,he,?_,?_⟩
  · grind
  · grind [scifNodeIdle]
  · grind [scifNodeIdle]
  intro t ht hs hn
  simp only [step] at ht
  split at ht
  · grind [scifNodeIdle]
  · cases ht
    exact absurd hs hn

/-- A count and its device's bit stay in a `long`. -/
theorem long_count {n : Int} {c : Nat} (h : n = c ∨ n = c + scifNodeIdle) (hc : c < 2 ^ 63) :
    long n = n := by
  simp only [scifNodeIdle] at h
  rw [long,Int.bmod_eq_of_le] <;> omega

theorem Inv.recount (h : Inv s)
    (ht : t.sdState = s.sdState ∧ t.cleaning = s.cleaning ∧ t.uncounted = s.uncounted)
    (hr : t.scifRefCnt - t.counted = s.scifRefCnt - s.counted) (hf : t.counted < 2 ^ 63) : Inv t := by
  refine ⟨?_,ht.2.2.trans h.all,hf⟩
  have hp := h.phase
  simp only [Phase,ht.1,ht.2.1] at hp ⊢
  grind

theorem Inv.add (h : Inv s) (hf : s.counted + 1 < 2 ^ 63) : Inv { s with
    scifRefCnt := long (s.scifRefCnt + 1),counted := s.counted + 1 } := by
  have he := h.either
  have hl := long_count (n := s.scifRefCnt + 1) (c := s.counted + 1) (by omega) hf
  refine h.recount ⟨rfl,rfl,rfl⟩ ?_ hf
  dsimp only
  omega

theorem Inv.locked (h : Inv s) (hs : s.sdState ∉ [.stopped,.stopping,.init])
    (hf : s.counted + 1 < 2 ^ 63) : Inv (incLocked s b) := by
  rw [incLocked,if_neg hs]
  split_ifs with hn
  · have he := h.either
    have hc : s.scifRefCnt + 2 ^ 63 = s.counted := by
      simp only [scifNodeIdle] at he
      omega
    refine ⟨.inl ⟨rfl,?_,?_⟩,h.all,hf⟩
    · have hp := h.phase
      simp only [Phase,List.mem_cons] at hp hs
      grind
    · have hl := long_count (n := s.counted + 1) (c := s.counted + 1) (by omega) hf
      dsimp only
      rw [hc,hl]
      omega
  · exact h.add hf

theorem Inv.dec (h : Inv s) (hc : 0 < s.counted) :
    Inv (decNodeRefcnt { s with counted := s.counted - 1 }) := by
  have he := h.either
  have hf := h.few
  have hl := long_count (n := s.scifRefCnt - 1) (c := s.counted - 1) (by omega) (by omega)
  simp only [decNodeRefcnt,hl]
  split
  all_goals
    refine h.recount ⟨rfl,rfl,rfl⟩ ?_ (by dsimp only; omega)
    dsimp only
    omega

theorem Inv.step (h : Inv s) (ha : Allowed s a) (hs : step s a = some t) : Inv t := by
  have hp := h.phase
  have hf := h.few
  cases a with
  | inc =>
    simp only [Micscif.Nm.step,addUnless] at hs
    split at hs
    · cases hs
      exact h.recount ⟨rfl,rfl,rfl⟩ rfl hf
    · cases hs
      exact h.add ha
  | incLocked ack => exact of_guard hs (fun _ => Inv.locked (h.recount ⟨rfl,rfl,rfl⟩ rfl hf) ha.1 ha.2)
  | dec => exact of_guard hs h.dec
  | decUncounted =>
    obtain ⟨hc,_⟩ := Option.ite_none_right_eq_some.mp hs
    exact absurd h.all (ne_of_gt hc)
  | restore =>
    obtain ⟨_,hs⟩ := Option.ite_none_right_eq_some.mp hs
    cases hs
    refine h.recount ⟨rfl,rfl,rfl⟩ ?_ hf
    rw [show addUnless s.scifRefCnt = s.scifRefCnt from if_pos ha]
  | remove | stop | spin =>
    simp only [Micscif.Nm.step] at hs
    split at hs
    all_goals
      cases hs
      refine ⟨?_,h.all,hf⟩
      simp only [Phase,scifNodeIdle] at *
      grind

theorem activity_counted (as : List Act) (ha : Along step Allowed init as)
    (he : exec step init as = some s) : Exact s := by
  have hi : Inv init := ⟨.inl ⟨rfl,rfl,rfl⟩,rfl,by decide⟩
  exact (exec_invariant (fun _ _ _ h ha hs => h.step ha hs) hi ha he).exact

theorem woken_counted : ∃ s,exec step init [.remove,.inc,.incLocked true,.dec,.stop,.spin] =
    some s ∧ s.scifRefCnt = scifNodeIdle ∧ Exact s := by
  refine ⟨_,rfl,rfl,activity_counted [.remove,.inc,.incLocked true,.dec,.stop,.spin] ?_ rfl⟩
  refine .cons trivial rfl (.cons (by decide : 0 + 1 < 2 ^ 63) rfl
    (.cons ⟨by decide,by decide⟩ rfl ?_))
  exact .cons trivial rfl (.cons trivial rfl (.cons trivial rfl trivial))

/-- A thread that bails out was not counted but counts down; of two threads that stayed after a
refusal the first puts its count back. -/
theorem count_lost : (∃ s,exec step init [.stop,.spin,.inc,.incLocked true,.decUncounted] = some s ∧
      s.scifRefCnt = 2 ^ 63 - 1) ∧
    ∃ s,exec step init [.remove,.inc,.incLocked false,.inc,.dec,.restore,.dec,.restore] = some s ∧
      s.counted = 0 ∧ s.scifRefCnt = scifNodeIdle + 2 :=
  ⟨⟨_,rfl,by decide⟩,⟨_,rfl,rfl,by decide⟩⟩

end Mpss.Proofs.ActivityCount
