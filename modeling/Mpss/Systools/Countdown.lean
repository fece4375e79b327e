import Mathlib.Algebra.Order.Ring.Int

namespace Mpss.Systools.Countdown

/-- What `flashDevices` finds of a card: `isValidConfigCard` refuses it, `setFirmwareImage` fails,
or neither. -/
inductive Card
  | refused
  | failing
  | ready
deriving DecidableEq

/-- A work item waits or runs, is between the two locked sections of its last decrement, or has
ended. -/
inductive FlashWorkItem
  | running
  | leaving (localCounter : Nat)
  | ended
deriving DecidableEq

/-- The main thread has `cards` before it, and a `localCounter` between the sections of a
decrement. -/
structure Flash where
  counter : Nat
  cards : List Card
  localCounter : Option Nat
  items : List FlashWorkItem
  passed : Bool

def setCounter (counter count : Nat) : Nat :=
  if 0 < counter then if count = 0 then 0 else count else if 0 < count then count else counter

/-- The second section of a decrement. -/
def decrement (counter localCounter : Nat) : Nat :=
  if 0 < localCounter then setCounter counter (localCounter - 1) else counter

def flashDevices (cards : List Card) : Flash := ⟨setCounter 0 cards.length,cards,none,[],false⟩

/-- A card whose image could not be set is given to a thread all the same. -/
def mainStep (s : Flash) : Option Flash :=
  match s.cards,s.localCounter with
  | [],_ => if s.counter = 0 then some { s with passed := true } else none
  | .ready :: cards,_ => some { s with cards,items := s.items ++ [.running] }
  | _ :: _,none => some { s with localCounter := some s.counter }
  | c :: cards,some n =>
    some { s with
      counter := decrement s.counter n,localCounter := none
      cards := if c = .failing then .ready :: cards else cards }

def itemStep (s : Flash) (i : Nat) : Option Flash :=
  match s.items[i]? with
  | some .running => some { s with items := s.items.set i (.leaving s.counter) }
  | some (.leaving n) => some { s with counter := decrement s.counter n,items := s.items.set i .ended }
  | _ => none

/-- A step of the main thread, or of the thread of an item. -/
def step (s : Flash) : Option Nat → Option Flash
  | none => mainStep s
  | some i => itemStep s i

end Mpss.Systools.Countdown
