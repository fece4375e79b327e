import Mpss.Library.Visits
import Mpss.Micscif.Nm

namespace Mpss.Proofs.Activation

open Library.Visits Micscif.Nm List Function Relation

theorem getNodemaskBit_eq : getNodemaskBit mask i = (mask (i / 8)).getLsbD (i % 8) := by
  have h0 : BitVec.twoPow 8 (i % 8) ≠ 0#8 := by
    intro h
    have hb := congrArg (fun b => b.getLsbD (i % 8)) h
    simp [Nat.mod_lt] at hb
  rw [getNodemaskBit,← BitVec.twoPow_eq,BitVec.and_twoPow]
  cases (mask (i / 8)).getLsbD (i % 8) <;> simp [h0]

/-- The bytes of a mask hold a set of nodes: an operation changes one of them. -/
theorem getNodemaskBit_set :
    getNodemaskBit (setNodemaskBit mask i val) = update (getNodemaskBit mask) i val := by
  funext j
  have hi := Nat.mod_lt i (show 0 < 8 by decide)
  have hj := Nat.mod_lt j (show 0 < 8 by decide)
  rw [getNodemaskBit_eq,setNodemaskBit,← BitVec.twoPow_eq]
  by_cases he : j = i
  · cases val <;> simp [he,hi]
  rw [update_of_ne he,getNodemaskBit_eq]
  by_cases hb : j / 8 = i / 8
  · have hne : j % 8 ≠ i % 8 := by omega
    cases val <;> simp [hb,hne,hj]
  · rw [update_of_ne hb]

theorem getNodemaskBit_zero : getNodemaskBit (fun _ => 0#8) = fun _ => false := by
  funext i
  rw [getNodemaskBit_eq,BitVec.getLsbD_zero]

theorem activesetBytes_bits (h : Host) (n : Nat) (mask : MaskBytes) (s : Search) :
    (activesetBytes h n mask s).map getNodemaskBit = activesetLoop h n (getNodemaskBit mask) s := by
  induction n generalizing mask s with
  | zero => rcases s with ⟨v,_ | ⟨node,stack⟩⟩ <;> rfl
  | succ n ih =>
    rcases s with ⟨v,_ | ⟨node,stack⟩⟩
    · rfl
    · rw [activesetBytes,ih,getNodemaskBit_set,activesetLoop]

def Sleeping (h : Host) (i : Nat) : Prop := i ≠ 0 ∧ (h.idleState i = .pc3 ∨ h.idleState i = .pc6)

/-- From a node to a sleeping card that it is disconnected from. -/
def Wakes (h : Host) (u v : Nat) : Prop := v ∈ h.nodes ∧ h.depmtrx u v = .disconnected ∧ Sleeping h v

/-- What holds in the search from `start` while the nodes `is` are left to be seen from `node`. -/
structure Explored (h : Host) (start : Nat) (mask : Nodemask) (node : Nat) (is : List Nat)
    (s : Search) : Prop where
  first : mask start = true ∨ start ∈ s.stack
  reach : ∀ i,mask i = true ∨ i ∈ s.stack → ReflTransGen (Wakes h) start i
  found : ∀ i,s.visited i = true → Sleeping h i → mask i = true ∨ i ∈ s.stack
  closed : ∀ i j,mask i = true → Wakes h i j → s.visited j = true ∨ i = node ∧ j ∈ is

theorem visit_iff {s : Search} : (s.visit i).visited j = true ↔ j = i ∨ s.visited j = true := by
  by_cases hj : j = i <;> simp [Search.visit,hj]

/-- The `for` loop sees every node: what it does not push is visited or cannot be woken. -/
theorem Explored.scan (he : Explored h start mask node is s) (hm : mask node = true)
    (hsb : is ⊆ h.nodes) : Explored h start mask node [] (scanDisconnected h node is s) := by
  induction is generalizing s with
  | nil => exact he
  | cons i is ih =>
    obtain ⟨hi,hsb⟩ := cons_subset.mp hsb
    rw [scanDisconnected]
    split
    · rename_i hd
      have hc : ∀ x y,mask x = true → Wakes h x y →
          (s.visit i).visited y = true ∨ x = node ∧ y ∈ is := by
        intro x y hx hw
        rw [visit_iff]
        rcases he.closed x y hx hw with hv | ⟨hn,hy⟩
        · exact .inl (.inr hv)
        · exact (mem_cons.mp hy).imp Or.inl (⟨hn,·⟩)
      split_ifs with hs
      · refine ih ⟨he.first.imp_right (.tail i),?_,?_,hc⟩ hsb
        · intro j hj
          rcases hj with hj | hj
          · exact he.reach j (.inl hj)
          · rcases mem_cons.mp hj with rfl | hj
            · exact (he.reach node (.inl hm)).tail ⟨hi,hd.2,hs⟩
            · exact he.reach j (.inr hj)
        · intro j hj hs
          rcases (visit_iff).mp hj with rfl | hj
          · exact .inr mem_cons_self
          · exact (he.found j hj hs).imp_right (.tail i)
      · refine ih ⟨he.first,he.reach,?_,hc⟩ hsb
        intro j hj hsl
        rcases (visit_iff).mp hj with rfl | hj
        · exact absurd hsl hs
        · exact he.found j hj hsl
    · rename_i hd
      refine ih { he with closed := ?_ } hsb
      intro x y hx hw
      rcases he.closed x y hx hw with hv | ⟨rfl,hy⟩
      · exact .inl hv
      rcases mem_cons.mp hy with rfl | hy
      · cases hv : s.visited y with
        | true => exact .inl rfl
        | false => exact absurd ⟨hv,hw.2.1⟩ hd
      · exact .inr ⟨rfl,hy⟩

/-- A node is pushed when it is visited, and a node is visited once. -/
theorem scanDisconnected_fuel (h : Host) (s : Search) (hs : is ⊆ nodes) :
    unvisited nodes (scanDisconnected h node is s).visited +
      (scanDisconnected h node is s).stack.length ≤
      unvisited nodes s.visited + s.stack.length := by
  induction is generalizing s with
  | nil => exact le_rfl
  | cons i is ih =>
    obtain ⟨hi,hs⟩ := cons_subset.mp hs
    rw [scanDisconnected]
    split
    · rename_i hd
      have hlt : unvisited nodes (s.visit i).visited < _ := unvisited_visit hi hd.1
      split
      · apply (ih ((s.visit i).push i) hs).trans
        simp only [Search.push,Search.visit,length_cons] at hlt ⊢
        omega
      · apply (ih (s.visit i) hs).trans
        exact Nat.add_le_add_right hlt.le _
    · exact ih s hs

theorem Explored.reached (he : Explored h start mask node [] ⟨visited,[]⟩) (i : Nat) :
    mask i = true ↔ ReflTransGen (Wakes h) start i := by
  refine ⟨fun hi => he.reach i (.inl hi),?_⟩
  intro hr
  induction hr with
  | refl => simpa using he.first
  | tail _ hw ih =>
    have hv := (he.closed _ _ ih hw).resolve_right (fun hj => not_mem_nil hj.2)
    simpa using he.found _ hv hw.2.2

theorem activesetLoop_reached (he : Explored h start mask node [] s)
    (hn : unvisited h.nodes s.visited + s.stack.length ≤ n) :
    ∃ found,activesetLoop h n mask s = some found ∧
      ∀ i,found i = true ↔ ReflTransGen (Wakes h) start i := by
  induction n generalizing mask node s with
  | zero =>
    rcases s with ⟨v,_ | ⟨x,stack⟩⟩
    · exact ⟨mask,rfl,he.reached⟩
    · simp at hn
  | succ n ih =>
    rcases s with ⟨v,_ | ⟨x,stack⟩⟩
    · exact ⟨mask,rfl,he.reached⟩
    have hm : ∀ i,update mask x true i = true ↔ i = x ∨ mask i = true := by
      intro i
      by_cases hi : i = x <;> simp [hi]
    have hf : ∀ i,update mask x true i = true ∨ i ∈ stack ↔ mask i = true ∨ i ∈ x :: stack := by
      intro i
      rw [hm,mem_cons]
      tauto
    refine ih (Explored.scan ⟨?_,?_,?_,?_⟩ (update_self ..) (List.Subset.refl _)) ?_
    · exact (hf start).mpr he.first
    · exact fun i hi => he.reach i ((hf i).mp hi)
    · exact fun i hv hs => (hf i).mpr (he.found i hv hs)
    · intro i j hi hw
      rcases (hm i).mp hi with rfl | hi
      · exact .inr ⟨rfl,hw.1⟩
      · exact (he.closed i j hi hw).imp_right (fun hj => absurd hj.2 not_mem_nil)
    · apply (scanDisconnected_fuel h ⟨v,stack⟩ (List.Subset.refl _)).trans
      simpa [← add_assoc] using hn

/-- The activation set is exactly the set of sleeping cards that are reachable. -/
theorem activeset_reachable (h : Host) (start : Nat) :
    ∃ mask,micscifGetActiveset h start (fun _ => 0#8) = some mask ∧
      ∀ i,getNodemaskBit mask i = true ↔ ReflTransGen (Wakes h) start i := by
  have he : Explored h start (fun _ => false) start []
    ⟨update (fun _ => false) start true,[start]⟩ := by
    refine ⟨.inr mem_cons_self,?_,?_,fun _ _ hm => absurd hm Bool.false_ne_true⟩
    · simp +contextual [ReflTransGen.refl]
    · intro i hv _
      by_cases hi : i = start <;> simp_all
  obtain ⟨found,hf,hr⟩ := activesetLoop_reached (n := h.nodes.length + 1) he
    (Nat.add_le_add_right (unvisited_le ..) 1)
  have hb := activesetBytes_bits h (h.nodes.length + 1) (fun _ => 0#8)
    ⟨update (fun _ => false) start true,[start]⟩
  rw [getNodemaskBit_zero,hf] at hb
  obtain ⟨mask,hm,rfl⟩ := Option.map_eq_some_iff.mp hb
  exact ⟨mask,hm,hr⟩

end Mpss.Proofs.Activation
