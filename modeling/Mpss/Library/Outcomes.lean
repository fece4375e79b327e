import Mathlib.Data.List.Basic

namespace Mpss.Library.Outcomes

/-- A call returns what it should, or fails in one of the ways it may. -/
def Ends (x : Except ε α) (fails : ε → Prop) (post : α → Prop) : Prop :=
  match x with
  | .ok a => post a
  | .error e => fails e

variable {x : Except ε α} {fails : ε → Prop} {post post' : α → Prop}

theorem Ends.mono (h : Ends x fails post) (hp : ∀ a,post a → post' a) : Ends x fails post' := by
  cases x with
  | ok a => exact hp a h
  | error e => exact h

theorem Ends.bind {post : β → Prop} (h : Ends x fails mid)
    (hf : ∀ a,mid a → Ends (f a) fails post) : Ends (x >>= f) fails post := by
  cases x with
  | ok a => exact hf a h
  | error e => exact h

theorem Ends.result (h : Ends x fails post) (hx : x = .ok a) : post a := by
  subst hx
  exact h

theorem Ends.returns (h : Ends x fails post) (hf : ∀ e,¬ fails e) : ∃ a,x = .ok a := by
  cases x with
  | ok a => exact ⟨a,rfl⟩
  | error e => exact absurd h (hf e)

theorem bind_ok {f : α → Except ε β} : (x >>= f) = .ok b ↔ ∃ a,x = .ok a ∧ f a = .ok b := by
  cases x with
  | ok a => exact ⟨fun h => ⟨a,rfl,h⟩,fun ⟨_,he,h⟩ => Except.ok.inj he ▸ h⟩
  | error e => exact ⟨fun h => (by cases h),fun ⟨_,he,_⟩ => (by cases he)⟩

def Returns (x : Option α) (post : α → Prop) : Prop := ∃ a,x = some a ∧ post a

/-- What may be said about the end of a call, however the calls of its kind fail. -/
structure Logic (m : Type → Type) [Monad m] where
  Holds : {α : Type} → m α → (α → Prop) → Prop
  pure : ∀ {α : Type} {a : α} {post : α → Prop},post a → Holds (Pure.pure a) post
  bind : ∀ {α β : Type} {x : m α} {f : α → m β} {mid : α → Prop} {post : β → Prop},
    Holds x mid → (∀ a,mid a → Holds (f a) post) → Holds (x >>= f) post

def returns : Logic Option where
  Holds := Returns
  pure := fun h => ⟨_,rfl,h⟩
  bind := by
    rintro _ _ _ _ _ _ ⟨a,rfl,ha⟩ hf
    exact hf a ha

def ends (fails : ε → Prop) : Logic (Except ε) where
  Holds := fun x post => Ends x fails post
  pure := id
  bind := Ends.bind

/-- What a piece of code does from here on: it is done, or it asks its surroundings and goes on with
the answer. -/
inductive Program (Q : Type) (A : Q → Type)
  | done
  | ask (q : Q) (next : A q → Program Q A)

/-- Every question is allowed in the state in which it is asked, whatever `legal` answers came
before. -/
def Safe (ok : σ → Q → Prop) (legal : σ → (q : Q) → A q → Prop) (move : σ → Q → σ) :
    σ → Program Q A → Prop
  | _,.done => True
  | s,.ask q next => ok s q ∧ ∀ a,legal s q a → Safe ok legal move (move s q) (next a)

def questions (answer : σ → (q : Q) → A q) (move : σ → Q → σ) : σ → Program Q A → List Q
  | _,.done => []
  | s,.ask q next => q :: questions answer move (move s q) (next (answer s q))

end Mpss.Library.Outcomes
