import Mathlib.Algebra.Order.Ring.Int

namespace Mpss.Vnet.TxQueue

/-- Where a call of `micvnet_xmit` stands; the device makes one at a time. -/
inductive Xmit
  | none
  | checked
  | queued
  | stopping
deriving DecidableEq

/-- One end of the link: messages with a buffer that are unread, packets queued and scheduled, calls
that have not yet counted their buffer and calls that have not yet woken the queue. -/
structure MicvnetInfo where
  unread : Nat
  txSkb : Nat
  schedSkb : Nat
  cntDmaBufAvail : Nat
  xmit : Xmit
  adding : Nat
  waking : Nat
  stopped : Bool

inductive Act
  | check
  | queue
  | decAndTest
  | netifStopQueue
  | schedule
  | errExit
  | complete
  | recvAddDmaBuffer
  | inc
  | wakeQueue
deriving DecidableEq

def step (s : MicvnetInfo) : Act → Option MicvnetInfo
  | .check =>
    if s.xmit = .none ∧ ¬ s.stopped ∧ s.cntDmaBufAvail ≠ 0 then some { s with xmit := .checked }
      else none
  | .queue => if s.xmit = .checked then some { s with xmit := .queued,txSkb := s.txSkb + 1 } else none
  | .decAndTest =>
    if s.xmit = .queued then
      some { s with
        cntDmaBufAvail := s.cntDmaBufAvail - 1
        xmit := if s.cntDmaBufAvail = 1 then .stopping else .none }
    else none
  | .netifStopQueue =>
    if s.xmit = .stopping then some { s with xmit := .none,stopped := true } else none
  | .schedule =>
    if s.txSkb ≠ 0 then some { s with txSkb := s.txSkb - 1,schedSkb := s.schedSkb + 1 } else none
  | .errExit =>
    if s.txSkb ≠ 0 then some { s with txSkb := s.txSkb - 1,adding := s.adding + 1 } else none
  | .complete =>
    if s.schedSkb ≠ 0 then some { s with schedSkb := s.schedSkb - 1,unread := s.unread + 1 } else none
  | .recvAddDmaBuffer =>
    if s.unread ≠ 0 then some { s with unread := s.unread - 1,adding := s.adding + 1 } else none
  | .inc =>
    if s.adding ≠ 0 then
      some { s with
        adding := s.adding - 1
        cntDmaBufAvail := s.cntDmaBufAvail + 1
        waking := s.waking + 1 }
    else none
  | .wakeQueue =>
    if s.waking ≠ 0 then some { s with waking := s.waking - 1,stopped := false } else none

/-- The link comes up with the posted buffers in unread messages. The queue is stopped since
`micvnet_start_dev` or `netif_tx_disable`, or it runs where neither has been called since it was
last woken. -/
def linkUp (posted : Nat) (stopped : Bool) : MicvnetInfo := ⟨posted,0,0,0,.none,0,0,stopped⟩

end Mpss.Vnet.TxQueue
