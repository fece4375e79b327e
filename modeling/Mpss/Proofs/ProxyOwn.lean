import Mpss.Library.Runs
import Mpss.Micscif.ProxyDma

namespace Mpss.Proofs.ProxyOwn
open Library.Runs Micscif.ProxyDma List Option

/-- A call that returns 0 has had its own transfer executed, and when everything rests the next call
is not refused. -/
structure Own (s : Endpt) : Prop where
  data : ∀ id,(id,true) ∈ s.returned → id ∈ s.executed
  ready : s.call = none → s.outstanding = [] → s.word = .idle

/-- A call that failed resets the word only when the peer has nothing left to do. -/
def Allowed (s : Endpt) : Act → Prop
  | .store false => s.outstanding = []
  | _ => True

/-- The peer has at most the request of the call, and has written the word for no other. -/
def Placed (s : Endpt) : Option (Nat × Stage) → Prop
  | none => s.outstanding = [] ∧ s.word = .idle
  | some (_,.sending) => s.outstanding = [] ∧ s.word = .inProgress
  | some (id,.waiting) => s.outstanding = [id] ∧ s.word = .inProgress ∨
      s.outstanding = [] ∧ (s.word = .inProgress ∨ s.word = .completed ∧ id ∈ s.executed)
  | some (id,.errorInitVa true) => s.outstanding = [] ∧ s.word = .completed ∧ id ∈ s.executed
  | some (id,.errorInitVa false) => s.word ≠ .idle ∧ (s.outstanding = [] ∨ s.outstanding = [id])

structure Inv (s : Endpt) : Prop where
  placed : Placed s s.call
  data : ∀ id,(id,true) ∈ s.returned → id ∈ s.executed

theorem Inv.own (h : Inv s) : Own s := by
  refine ⟨h.data,fun hc _ => ?_⟩
  have hp := h.placed
  rw [hc] at hp
  exact hp.2

theorem Inv.peer (h : Inv s) (hs : step s (.peer ok) = some t) : Inv t := by
  have hp := h.placed
  obtain ⟨word,call,calls,outstanding,executed,returned⟩ := s
  cases outstanding with
  | nil => cases hs
  | cons id rest =>
    cases ok with
    | true =>
      cases hs
      refine ⟨?_,fun i hi => mem_append_left _ (h.data i hi)⟩
      rcases call with _ | ⟨j,_ | _ | _ | _⟩ <;> simp_all [Placed]
    | false =>
      cases hs
      refine ⟨?_,h.data⟩
      rcases call with _ | ⟨j,_ | _ | _ | _⟩ <;> simp_all [Placed]

theorem at_some (h : at_ s stage f = some t) : ∃ id,s.call = some (id,stage) ∧ f id = some t := by
  unfold at_ at h
  split at h
  · rename_i id now hc
    obtain ⟨rfl,hf⟩ := ite_none_right_eq_some.mp h
    exact ⟨id,hc,hf⟩
  · cases h

theorem Inv.step (h : Inv s) (ha : Allowed s a) (hs : step s a = some t) : Inv t := by
  have hp := h.placed
  have hd := h.data
  cases a with
  | peer ok => exact h.peer hs
  | call =>
    obtain ⟨hi,he⟩ := ite_none_right_eq_some.mp hs
    cases he
    refine ⟨⟨?_,rfl⟩,hd⟩
    rcases hc : s.call with _ | ⟨j,_ | _ | _ | _⟩ <;> rw [hc] at hp <;> simp_all [Placed]
  | send ok =>
    obtain ⟨id,hc,he⟩ := at_some hs
    rw [hc] at hp
    obtain ⟨ho,hw⟩ := hp
    split at he
    · cases he
      exact ⟨.inl ⟨by rw [ho]; rfl,hw⟩,hd⟩
    · cases he
      exact ⟨⟨by simp [hw],.inl ho⟩,hd⟩
  | see =>
    obtain ⟨id,hc,he⟩ := at_some hs
    obtain ⟨hw,he⟩ := ite_none_right_eq_some.mp he
    cases he
    refine ⟨?_,hd⟩
    simp_all [Placed]
  | timeOut =>
    obtain ⟨id,hc,he⟩ := at_some hs
    cases he
    rw [hc] at hp
    refine ⟨?_,hd⟩
    rcases hp with ⟨ho,hw⟩ | ⟨ho,hw | ⟨hw,_⟩⟩
    · exact ⟨by simp [hw],.inr ho⟩
    all_goals exact ⟨by simp [hw],.inl ho⟩
  | store ok =>
    obtain ⟨id,hc,he⟩ := at_some hs
    cases he
    rw [hc] at hp
    cases ok with
    | true =>
      refine ⟨⟨hp.1,rfl⟩,fun i hi => ?_⟩
      rcases mem_append.mp hi with hi | hi
      · exact hd i hi
      · cases mem_singleton.mp hi
        exact hp.2.2
    | false =>
      refine ⟨⟨ha,rfl⟩,fun i hi => ?_⟩
      rcases mem_append.mp hi with hi | hi
      · exact hd i hi
      · cases mem_singleton.mp hi

/-- Where no call gives up a request that the peer may still complete, a read completes with its own
data. -/
theorem proxy_own_data (as : List Act) (s : Endpt) (ha : Along step Allowed init as)
    (he : exec step init as = some s) : Own s := by
  have hi : Inv init := ⟨⟨rfl,rfl⟩,fun _ h => nomatch h⟩
  exact (exec_invariant (fun _ _ _ h ha hs => h.step ha hs) hi ha he).own

instance : ∀ a,Decidable (Allowed s a)
  | .store false => inferInstanceAs (Decidable (s.outstanding = []))
  | .store true | .call | .send _ | .see | .timeOut | .peer _ => .isTrue trivial

/-- A send that fails, a transfer that fails on the peer, and one that succeeds. -/
def proxied : List Act :=
  [.call,.send false,.store false,.call,.send true,.peer false,.timeOut,.store false,.call,
    .send true,.peer true,.see,.store true]

theorem proxied_own :
    ∃ s,exec step init proxied = some s ∧ s.returned = [(0,false),(1,false),(2,true)] ∧ Own s :=
  ⟨_,rfl,rfl,proxy_own_data proxied _ (by decide) rfl⟩

/-- The completion of a call that has timed out is taken for that of the next one. -/
theorem late_completion_taken : ∃ s,exec step init
    [.call,.send true,.timeOut,.store false,.call,.send true,.peer true,.see,.store true] = some s ∧
      (1,true) ∈ s.returned ∧ 1 ∉ s.executed := by
  refine ⟨_,rfl,?_⟩
  decide

end Mpss.Proofs.ProxyOwn
