import Mpss.Library.Runs
import Mpss.Vnet.TxQueue

namespace Mpss.Proofs.QueueWoken
open Vnet.TxQueue Library.Runs

/-- Nothing is on its way and no call in progress. -/
def Quiet (s : MicvnetInfo) : Prop :=
  s.unread = 0 ∧ s.txSkb = 0 ∧ s.schedSkb = 0 ∧ s.xmit = .none ∧ s.adding = 0 ∧ s.waking = 0

/-- The queue is stopped while no buffer is there, or before it is woken for one. -/
def Timely (s : MicvnetInfo) (a : Act) : Prop := a = .netifStopQueue →
    s.cntDmaBufAvail = 0 ∨ s.waking ≠ 0
deriving Decidable

structure Woken (s : MicvnetInfo) : Prop where
  coming : s.stopped = true → s.cntDmaBufAvail = 0 ∨ s.waking ≠ 0

theorem Woken.step (h : Woken s) (ha : Timely s a) (hs : step s a = some t) : Woken t := by
  cases a with
  | netifStopQueue => exact of_guard hs (fun _ => ⟨fun _ => ha rfl⟩)
  | wakeQueue | inc => exact of_guard hs (fun _ => ⟨by simp⟩)
  | decAndTest =>
    refine of_guard hs (fun _ => ⟨fun hst => ?_⟩)
    exact (h.coming hst).imp (by simp +contextual) id
  | check | queue | schedule | errExit | complete | recvAddDmaBuffer =>
    exact of_guard hs (fun _ => ⟨h.coming⟩)

/-- A buffer that is counted and announced between the decrement and the stop leaves the queue
stopped. -/
theorem queue_woken (posted : Nat) (stopped : Bool) (as : List Act) (s : MicvnetInfo)
    (ha : Along step Timely (linkUp posted stopped) as)
    (hr : exec step (linkUp posted stopped) as = some s)
    (hq : Quiet s) (hb : 0 < s.cntDmaBufAvail) : s.stopped = false := by
  have hw : Woken s := exec_invariant (fun _ _ _ h ha hs => h.step ha hs) ⟨fun _ => .inl rfl⟩ ha hr
  by_contra hs
  obtain h | h := hw.coming (by simpa using hs)
  · exact Nat.ne_of_gt hb h
  · exact h hq.2.2.2.2.2

def learn : List Act := [.recvAddDmaBuffer,.inc,.wakeQueue]

/-- The only buffer is used up, the queue is stopped, and the buffer comes back. -/
def stopAndWake : List Act :=
  learn ++ [.check,.queue,.schedule,.decAndTest,.netifStopQueue,.complete] ++ learn

theorem stopped_queue_woken : ∃ s,exec step (linkUp 1 true) stopAndWake = some s ∧ s.stopped = false :=
  ⟨_,rfl,queue_woken 1 true stopAndWake _ (by decide) rfl ⟨rfl,rfl,rfl,rfl,rfl,rfl⟩ Nat.one_pos⟩

/-- The buffer of a packet comes back before the queue is stopped for it. -/
theorem queue_left_stopped : ∃ s,exec step (linkUp 1 true)
      (learn ++ [.check,.queue,.schedule,.decAndTest,.complete] ++ learn ++
      [.netifStopQueue]) = some s ∧
    Quiet s ∧ s.cntDmaBufAvail = 1 ∧ s.stopped = true := ⟨_,rfl,⟨rfl,rfl,rfl,rfl,rfl,rfl⟩,rfl,rfl⟩

end Mpss.Proofs.QueueWoken
