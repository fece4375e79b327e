import Mpss.Systools.Connection

namespace Mpss.Proofs.SentWhole
open Systools.Connection List

def opened : ScifConnection := ⟨true,[],false⟩

/-- The answer that counts in a turn. -/
def answer (t : Turn) : SendResult :=
  if t.first ≠ .reset then t.first else if t.opens then t.second else .error

/-- The turns that carry `n` bytes, when they do. -/
def carriers : Nat → List Turn → Option (List Turn)
  | 0,_ => some []
  | _ + 1,[] => none
  | n + 1,t :: turns =>
    match answer t with
    | .accepted k => (carriers (n - k) turns).map (t :: ·)
    | _ => none

variable (turns : List Turn)

/-- None of the turns has found the connection reset. -/
def Unbroken : Prop := ∀ t ∈ turns,t.first ≠ .reset

theorem sendOnce_spec (t : Turn) (hc : c.refused = false) : ∃ c',sendOnce t c = (answer t,c') ∧
    (c'.refused = true → c'.isOpen = false ∧ answer t = .error) ∧
    (answer t ≠ .error → c'.taken = if t.first = .reset then [] else c.taken) := by
  by_cases ht : t.first = .reset
  · cases ho : t.opens <;> simp [sendOnce,answer,ht,ho,close,reopen]
  · exact ⟨c,by simp [sendOnce,answer,ht],by simp [hc],by simp [ht]⟩

/-- What a call returns, by the turns that carry the rest of the message: a reset costs the bytes
before it. -/
structure Sent (c : ScifConnection) (p : List UInt8) (used : Option (List Turn)) (r : Int)
    (c' : ScifConnection) : Prop where
  zero : r = 0 ↔ used.isSome
  shut : c'.refused = true → c'.isOpen = false
  le : r = 0 → c'.taken.length ≤ (c.taken ++ p).length
  whole : ∀ u ∈ used,c'.taken = c.taken ++ p ↔ Unbroken (if c.taken = [] then u.tail else u)

theorem send_spec (p : List UInt8) (hc : c.refused = false) : (∀ r c',send turns p c = some (r,c') →
    Sent c p (carriers p.length turns) r c') ∧ (send turns p c = none →
    carriers p.length turns = none) := by
  fun_induction send turns p c with
  | case1 turns c =>
    refine ⟨?_,by simp⟩
    rintro r c' ⟨⟩
    constructor <;> simp [carriers,hc,Unbroken]
  | case2 => simp [carriers]
  | case3 t turns b p c k d hs ih =>
    obtain ⟨_,hs',hr,ht⟩ := sendOnce_spec t hc
    obtain ⟨ha,rfl⟩ := Prod.mk.inj (hs.symm.trans hs')
    obtain ⟨ih,hn⟩ := ih (by simpa [← ha] using hr)
    have ht := ht (by simp [← ha])
    rw [length_drop] at ih hn
    simp only [length_cons,carriers,← ha]
    refine ⟨fun r c' h => ?_,fun h => by simp [hn h]⟩
    obtain ⟨hz,hd,hl,hw⟩ := ih r c' h
    simp only [append_assoc,cons_append,take_append_drop,append_eq_nil_iff,reduceCtorEq,and_false,
      if_false,ht] at hl hw
    refine ⟨by simp [hz],hd,fun h0 => (hl h0).trans (by split <;> simp),?_⟩
    rintro _ hu
    obtain ⟨rest,hr,rfl⟩ := Option.map_eq_some_iff.mp hu
    have hw := hw rest hr
    by_cases hf : t.first = .reset
    · rw [if_pos hf] at hw hl
      by_cases hc : c.taken = []
      · simpa [hc] using hw
      have hl := hl (hz.mpr (by simp [hr]))
      have hp := length_pos_iff.mpr hc
      refine iff_of_false (fun h => ?_) (by simp [hc,Unbroken,hf])
      rw [h,length_append,nil_append] at hl
      omega
    · rw [if_neg hf] at hw
      rw [hw]
      split <;> simp [Unbroken,hf]
  | case4 t turns b p c a d hn hs =>
    obtain ⟨_,hs',hr,_⟩ := sendOnce_spec t hc
    obtain ⟨rfl,rfl⟩ := Prod.mk.inj (hs.symm.trans hs')
    have hu : carriers (p.length + 1) (t :: turns) = none := by simp only [carriers]
    refine ⟨?_,by simp⟩
    rintro r c' ⟨⟩
    exact ⟨by simp [hu],fun h => (hr h).1,by simp,by simp [hu]⟩

/-- Bytes that a lost connection has accepted are not sent again. -/
theorem sent_whole_iff (message : List UInt8) :
    ((∀ c,send turns message opened = some (0,c) → c.taken = message) ∧
      ∀ c,send turns message opened = some (-1,c) → c.refused = true → c.isOpen = false) ↔
    ∀ used,carriers message.length turns = some used → Unbroken used.tail := by
  obtain ⟨hs,hn⟩ := send_spec turns message (c := opened) rfl
  rw [and_iff_left (fun c h => (hs _ c h).shut)]
  constructor
  · intro h used hu
    cases hr : send turns message opened with
    | none => simp [hn hr] at hu
    | some rc =>
      have hrc := hs _ _ hr
      have hz := hrc.zero.mpr (by simp [hu])
      exact (hrc.whole used hu).mp (h _ (hz ▸ hr))
  · intro h c hr
    have hrc := hs _ _ hr
    obtain ⟨used,hu⟩ := Option.isSome_iff_exists.mp (hrc.zero.mp rfl)
    exact (hrc.whole used hu).mpr (h used hu)

/-- The connection is reset between two bytes. -/
theorem first_byte_lost :
    ¬ ∀ c,send [⟨.accepted 0,true,.error⟩,⟨.reset,true,.accepted 0⟩] [1,2] opened = some (0,c) →
    c.taken = [1,2] := by
  intro h
  exact absurd (h _ rfl) (by decide)

end Mpss.Proofs.SentWhole
