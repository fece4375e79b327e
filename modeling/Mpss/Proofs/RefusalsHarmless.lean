import Mpss.Mpssd.Monitor

namespace Mpss.Proofs.RefusalsHarmless
open Mpssd.Monitor List

/-- An attempt leaves an established connection as it is, and none of its own endpoints open when it
is refused. -/
def Harmless (s : MpssdInfo) (a : Attempt) : Prop :=
  (s.recvEp ≠ none → (accept s a).2.recvEp = s.recvEp ∧ (accept s a).2.sendEp = s.sendEp) ∧
    ((accept s a).1 = false → ∀ e ∈ (accept s a).2.opened,e < s.next)

structure Inv (s : MpssdInfo) : Prop where
  both : s.recvEp = none ↔ s.sendEp = none
  old : ∀ e ∈ s.opened,e < s.next

theorem Inv.close (h : Inv s) : Inv (closeScifConnection s) :=
  ⟨by simp [closeScifConnection],fun e he => h.old e (mem_filter.mp he).1⟩

theorem Inv.scifOpen (h : Inv s) : Inv (scifOpen s) :=
  ⟨h.both,forall_mem_cons.mpr ⟨Nat.lt_succ_self _,fun e he => Nat.lt_succ_of_lt (h.old e he)⟩⟩

theorem accept_busy (h : s.recvEp ≠ none) (a : Attempt) :
    accept s a = (false,closeScifConnection (scifOpen s)) := by
  simp [accept,establishConnection,scifOpen,Option.isSome_iff_ne_none.mpr h]

theorem Inv.accept_free (h : Inv s) (hr : s.recvEp = none) (a : Attempt) :
    Inv (accept s a).2 ∧ ((accept s a).1 = false → ∀ e ∈ (accept s a).2.opened,e < s.next) := by
  have hs := h.both.mp hr
  have ho := h.old
  simp only [accept,establishConnection,Mpssd.Monitor.scifOpen,hr,hs,closeScifConnection]
  split
  · simp at *
  split
  · refine ⟨⟨by simp,?_⟩,fun _ => ?_⟩
    all_goals simp
    all_goals grind
  cases (a.remotePort = some a.port && a.sameNode && a.sent : Bool) with
  | true => exact ⟨⟨by simp,by simp; grind⟩,by simp⟩
  | false =>
    refine ⟨⟨by simp,?_⟩,fun _ => ?_⟩
    all_goals simp
    all_goals grind

theorem Inv.step (h : Inv s) (e : Event) : Inv (step s e) := by
  cases e with
  | lost => exact h.close
  | attempt a =>
    by_cases hr : s.recvEp = none
    · exact (h.accept_free hr a).1
    · rw [Mpssd.Monitor.step,accept_busy hr]
      exact h.scifOpen.close

theorem harmless_iff (h : Inv s) (a : Attempt) : Harmless s a ↔ s.recvEp = none := by
  refine ⟨fun hh => ?_,fun hr => ⟨fun hn => absurd hr hn,(h.accept_free hr a).2⟩⟩
  by_contra hr
  have hk := (hh.1 hr).1
  rw [accept_busy hr] at hk
  exact hr hk.symm

/-- Every attempt of a run, in the state that it finds. -/
def Attempts (P : MpssdInfo → Attempt → Prop) (es : List Event) : Prop :=
  ∀ before a rest,es = before ++ .attempt a :: rest → P (before.foldl step start) a

/-- The endpoints that are closed for a refused attempt are those of the connection that is
established. -/
theorem refusals_harmless_iff (es : List Event) :
    Attempts Harmless es ↔ Attempts (fun s _ => s.recvEp = none) es :=
  forall₄_congr (fun before a _ _ =>
    harmless_iff (foldlRecOn before step ⟨Iff.rfl,by simp [start]⟩ (fun _ hs e _ => hs.step e)) a)

def genuine : Attempt := ⟨some 1,true,some 5,5,true,true⟩

theorem second_attempt_disturbs : ¬ Attempts Harmless [.attempt genuine,.attempt genuine] := by
  intro h
  have hd := (h [.attempt genuine] genuine [] rfl).1 (by decide)
  exact absurd hd.1 (by decide)

end Mpss.Proofs.RefusalsHarmless
