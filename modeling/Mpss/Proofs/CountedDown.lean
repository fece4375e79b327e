import Mpss.Library.Counting
import Mpss.Library.Runs
import Mpss.Systools.Countdown

namespace Mpss.Proofs.CountedDown
open Systools.Countdown Library.Counting Library.Runs List

theorem setCounter_eq : setCounter counter n = n := by
  unfold setCounter
  grind

theorem decrement_eq (h : 0 < n) :
    decrement counter n = n - 1 := by rw [decrement,if_pos h,setCounter_eq]

def due : FlashWorkItem → Nat
  | .ended => 0
  | _ => 1

def leaving : FlashWorkItem → Nat
  | .leaving _ => 1
  | _ => 0

/-- The decrements between their two sections. -/
def begun (s : Flash) : Nat := s.localCounter.toList.length + total leaving s.items

/-- No decrement begins between the sections of another. -/
def Apart (s : Flash) : Option Nat → Prop
  | none => s.localCounter = none → s.cards.head?.any (· ≠ .ready) = true → begun s = 0
  | some i => s.items[i]? = some .running → begun s = 0

structure Inv (s : Flash) : Prop where
  prepared : .failing ∉ s.cards
  counter : s.counter = s.cards.length + total due s.items
  one : begun s ≤ 1
  main : ∀ n ∈ s.localCounter,n = s.counter
  item : ∀ n,.leaving n ∈ s.items → n = s.counter
  passed : s.passed = true → s.counter = 0

theorem total_pos (weight : α → Nat) (ha : a ∈ l) (hw : 0 < weight a) : 0 < total weight l :=
  List.sum_pos_iff_exists_pos_nat.mpr ⟨_,mem_map_of_mem ha,hw⟩

theorem Inv.mainStep (h : Inv s) (ha : Apart s none) (hs : mainStep s = some t) : Inv t := by
  obtain ⟨hp,hc,ho,hm,hi,hz⟩ := h
  unfold Systools.Countdown.mainStep at hs
  split at hs
  · obtain ⟨h0,hs⟩ := Option.ite_none_right_eq_some.mp hs
    cases hs
    exact ⟨hp,hc,ho,hm,hi,fun _ => h0⟩
  · rename_i cards hcs
    cases hs
    rw [hcs] at hp hc
    refine ⟨fun h => hp (.tail _ h),?_,?_,hm,?_,hz⟩
    · simp [hc,total,due]
      omega
    · simpa [begun,total,leaving] using ho
    · simpa using hi
  · rename_i c cards hr hcs hl
    cases hs
    have hb := ha hl (by simpa [hcs] using hr)
    refine ⟨hp,hc,?_,by simp,hi,hz⟩
    simp [begun,hl] at hb ⊢
    omega
  · rename_i c cards n hr hcs hl
    cases hs
    obtain rfl := hm n hl
    have hb : total leaving s.items = 0 := by
      simp [begun,hl] at ho
      omega
    rw [hcs] at hp hc
    have hne : c ≠ .failing := by
      rintro rfl
      exact hp mem_cons_self
    rw [length_cons] at hc
    rw [decrement_eq (by omega),if_neg hne]
    refine ⟨fun h => hp (.tail _ h),by simp [hc],by simp [begun,hb],by simp,fun n hn => ?_,fun h => ?_⟩
    · exact absurd hb (total_pos leaving hn Nat.one_pos).ne'
    · have := hz h
      omega

theorem Inv.itemStep (h : Inv s) (ha : Apart s (some i)) (hs : itemStep s i = some t) : Inv t := by
  obtain ⟨hp,hc,ho,hm,hi,hz⟩ := h
  unfold Systools.Countdown.itemStep at hs
  split at hs
  · rename_i hx
    cases hs
    have hb := ha hx
    have hd := total_set due hx (.leaving s.counter)
    have hl := total_set leaving hx (.leaving s.counter)
    simp only [begun,leaving,due] at hb hd hl
    refine ⟨hp,?_,?_,hm,?_,hz⟩
    · simp only
      omega
    · simp only [begun]
      omega
    · intro n hn
      obtain h | h := mem_or_eq_of_mem_set hn
      · exact hi n h
      · exact (FlashWorkItem.leaving.inj h)
  · rename_i n hx
    cases hs
    obtain rfl := hi n (mem_of_getElem? hx)
    have hd := total_set due hx .ended
    have hl := total_set leaving hx .ended
    have hb := ho
    simp only [begun,leaving,due] at hb hl hd
    rw [decrement_eq (by omega)]
    have hm : s.localCounter = none := Option.toList_eq_nil_iff.mp (length_eq_zero_iff.mp (by omega))
    have hb : total leaving (s.items.set i .ended) = 0 := by omega
    refine ⟨hp,?_,by simp [begun,hm,hb],by simp [hm],fun n hn => ?_,fun h => ?_⟩
    · simp only
      omega
    · exact absurd hb (total_pos leaving hn Nat.one_pos).ne'
    · have := hz h
      omega
  · cases hs

theorem Inv.step (h : Inv s) (ha : Apart s e) (hs : step s e = some t) : Inv t := by
  cases e with
  | none => exact h.mainStep ha hs
  | some i => exact h.itemStep ha hs

/-- Without cards that are counted down twice and with decrements apart from each other the main
thread waits for all threads, and not for ever. -/
theorem counted_down (cards : List Card) (es : List (Option Nat)) (s : Flash) (hf : .failing ∉ cards)
    (ha : Along step Apart (flashDevices cards) es) (he : exec step (flashDevices cards) es = some s) :
    (s.passed = true → ∀ i ∈ s.items,i = .ended) ∧
      (s.cards = [] → (∀ i ∈ s.items,i = .ended) → s.counter = 0) := by
  have hs : Inv (flashDevices cards) := by
    constructor <;> simp [flashDevices,setCounter_eq,total,begun,hf]
  obtain ⟨-,hc,-,-,-,hz⟩ : Inv s := exec_invariant (fun s e t hi ha hs => hi.step ha hs) hs ha he
  refine ⟨fun hp i hm => ?_,fun h0 hd => ?_⟩
  · by_contra hne
    have := total_pos due hm (by cases i <;> simp_all [due])
    have := hz hp
    omega
  · have hd : total due s.items = 0 := List.sum_eq_zero_iff_forall_eq_nat.mpr
      (by simpa using fun i hi => hd i hi ▸ rfl)
    simp [hc,h0,hd]

instance : ∀ a,Decidable (Apart s a)
  | none => inferInstanceAs (Decidable (_ → _ → _))
  | some _ => inferInstanceAs (Decidable (_ → _))

/-- Two cards whose threads end one after the other, and one that is refused between them. -/
def threeCards : List (Option Nat) := [none,none,none,none,some 1,some 1,some 0,some 0,none]

theorem three_cards_counted_down :
    ∃ s,exec step (flashDevices [.ready,.refused,.ready]) threeCards = some s ∧ s.passed = true ∧
      ∀ i ∈ s.items,i = .ended :=
  ⟨_,rfl,rfl,(counted_down [.ready,.refused,.ready] threeCards _ (by decide) (by decide) rfl).1 rfl⟩

/-- Two cards that end at the same time. -/
theorem decrement_lost : ∃ s,exec step (flashDevices [.ready,.ready])
    [none,none,some 0,some 1,some 0,some 1] = some s ∧
    s.cards = [] ∧ (∀ i ∈ s.items,i = .ended) ∧ s.counter = 1 := ⟨_,rfl,rfl,by decide,rfl⟩

end Mpss.Proofs.CountedDown
