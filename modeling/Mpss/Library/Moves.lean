import Mpss.Library.Bytes

namespace Mpss.Library.Moves
open Library.Bytes List Function

/-- The copy of one cell. -/
structure Move where
  dst : Nat
  src : Nat
deriving DecidableEq

def Move.apply (m : Memory β) (v : Move) : Memory β := update m v.dst (m v.src)

def applyAll (m : Memory β) (vs : List Move) : Memory β := vs.foldl Move.apply m

/-- Copies made at once, copies that an engine makes later in any order, and copies made when the
engine is idle. -/
inductive Op
  | now (vs : List Move)
  | later (vs : List Move)
  | after (vs : List Move)

def Op.moves : Op → List Move
  | .now vs => vs
  | .later vs => vs
  | .after vs => vs

def moves (ops : List Op) : List Move := ops.flatMap Op.moves

structure State (β : Type) where
  ops : List Op
  pending : List Move
  mem : Memory β

inductive Step : State β → State β → Prop
  | now : Step ⟨.now vs :: ops,p,m⟩ ⟨ops,p,applyAll m vs⟩
  | later : Step ⟨.later vs :: ops,p,m⟩ ⟨ops,p ++ vs,m⟩
  | finish (hv : v ∈ p) : Step ⟨ops,p,m⟩ ⟨ops,p.erase v,v.apply m⟩
  | after : Step ⟨.after vs :: ops,[],m⟩ ⟨ops,[],applyAll m vs⟩

abbrev Steps : State β → State β → Prop := Relation.ReflTransGen Step

def Completes (ops : List Op) (m m' : Memory β) : Prop := Steps ⟨ops,[],m⟩ ⟨[],[],m'⟩

/-- No copy reads what another one writes, and no two write different things to one cell. -/
def Independent (vs : List Move) : Prop := ∀ u ∈ vs,∀ v ∈ vs,u.dst ≠ v.src ∧
    (u.dst = v.dst → u.src = v.src)

/-- The moves have been made, and nothing else. -/
structure Moved (made : Move → Prop) (m m' : Memory β) : Prop where
  copied : ∀ v,made v → m' v.dst = m v.src
  frame : ∀ a,(∀ v,made v → a ≠ v.dst) → m' a = m a

variable {m m' : Memory β}

theorem Moved.refl (m : Memory β) : Moved (fun _ => False) m m := ⟨nofun,fun _ _ => rfl⟩

theorem Moved.congr (h : Moved made m m') (he : ∀ v,made v ↔ made' v) : Moved made' m m' :=
  ⟨fun v hv => h.copied v ((he v).mpr hv),fun a ha => h.frame a (fun v hv => ha v ((he v).mp hv))⟩

section
variable (h : Moved made m m') (hi : Independent vs) (hm : ∀ u,made u → u ∈ vs)
include h hi hm

theorem Moved.apply (hv : v ∈ vs) : Moved (fun u => u = v ∨ made u) m (v.apply m') := by
  have hsr : m' v.src = m v.src := h.frame v.src (fun u hu => (hi u (hm u hu) v hv).1.symm)
  refine ⟨?_,?_⟩
  · intro u hu
    by_cases he : u.dst = v.dst
    · have hs : u.src = v.src := by
        rcases hu with rfl | hu
        · rfl
        · exact (hi u (hm u hu) v hv).2 he
      rw [he,hs,Move.apply,update_self,hsr]
    · rw [Move.apply,update_of_ne he]
      rcases hu with rfl | hu
      · exact absurd rfl he
      · exact h.copied u hu
  · intro a ha
    rw [Move.apply,update_of_ne (ha v (.inl rfl))]
    exact h.frame a (fun u hu => ha u (.inr hu))

theorem Moved.applyAll (hu : ∀ u ∈ us,u ∈ vs) :
    Moved (fun u => u ∈ us ∨ made u) m (applyAll m' us) := by
  induction us generalizing made m' with
  | nil => exact h.congr (fun v => by simp)
  | cons u us ih =>
    have ho := h.apply hi hm (hu u mem_cons_self)
    have hm' : ∀ w,w = u ∨ made w → w ∈ vs := by
      rintro w (rfl | hw)
      · exact hu w mem_cons_self
      · exact hm w hw
    refine (ih ho hm' (forall_mem_cons.mp hu).2).congr ?_
    intro w
    rw [mem_cons]
    tauto

end

/-- Every move has been made or is still to be made. -/
structure Progress (vs : List Move) (m : Memory β) (s : State β) (made : Move → Prop) : Prop where
  moved : Moved made m s.mem
  made_mem : ∀ v,made v → v ∈ vs
  ops_mem : ∀ v ∈ moves s.ops,v ∈ vs
  pending_mem : ∀ v ∈ s.pending,v ∈ vs
  covered : ∀ v ∈ vs,made v ∨ v ∈ moves s.ops ∨ v ∈ s.pending

theorem mem_moves_cons : v ∈ moves (op :: ops) ↔ v ∈ op.moves ∨ v ∈ moves ops := by
  rw [moves,flatMap_cons,mem_append]
  rfl

theorem Progress.perform (h : Progress vs m s made) (hi : Independent vs) {op : Op}
    (hs : moves s.ops = op.moves ++ moves ops) :
    Progress vs m ⟨ops,s.pending,Moves.applyAll s.mem op.moves⟩ (fun u => u ∈ op.moves ∨ made u) := by
  have hop : ∀ u ∈ op.moves,u ∈ vs := fun u hu => h.ops_mem u (hs ▸ mem_append_left _ hu)
  refine ⟨h.moved.applyAll hi h.made_mem hop,?_,?_,h.pending_mem,?_⟩
  · rintro u (hu | hu)
    · exact hop u hu
    · exact h.made_mem u hu
  · exact fun u hu => h.ops_mem u (hs ▸ mem_append_right _ hu)
  intro u hu
  rcases h.covered u hu with hd | ho | hp
  · exact .inl (.inr hd)
  · rw [hs,mem_append] at ho
    rcases ho with ho | ho
    · exact .inl (.inl ho)
    · exact .inr (.inl ho)
  · exact .inr (.inr hp)

theorem Progress.step (h : Progress vs m s made) (hi : Independent vs)
    (hs : Step s t) : ∃ made',Progress vs m t made' := by
  cases hs with
  | @now us ops p m' => exact ⟨_,h.perform hi rfl⟩
  | @later us ops p m' =>
    refine ⟨made,h.moved,h.made_mem,fun u hu => h.ops_mem u (mem_moves_cons.mpr (.inr hu)),?_,?_⟩
    · exact forall_mem_append.mpr ⟨h.pending_mem,fun u hu => h.ops_mem u
        (mem_moves_cons.mpr (.inl hu))⟩
    intro u hu
    rcases h.covered u hu with hd | ho | hp
    · exact .inl hd
    · rcases mem_moves_cons.mp ho with ho | ho
      · exact .inr (.inr (mem_append_right _ ho))
      · exact .inr (.inl ho)
    · exact .inr (.inr (mem_append_left _ hp))
  | @finish p v ops m' hv =>
    refine ⟨fun u => u = v ∨ made u,h.moved.apply hi h.made_mem (h.pending_mem v hv),?_,h.ops_mem,
      fun u hu => h.pending_mem u (mem_of_mem_erase hu),?_⟩
    · rintro u (rfl | hu)
      · exact h.pending_mem u hv
      · exact h.made_mem u hu
    intro u hu
    rcases h.covered u hu with hd | ho | hp
    · exact .inl (.inr hd)
    · exact .inr (.inl ho)
    · by_cases he : u = v
      · exact .inl (.inl he)
      · exact .inr (.inr ((mem_erase_of_ne he).mpr hp))
  | @after us ops m' => exact ⟨_,h.perform hi rfl⟩

/-- Whatever the order of the engine, independent copies end up made. -/
theorem completes_moved (hi : Independent (moves ops)) (h : Completes ops m m') :
    Moved (fun v => v ∈ moves ops) m m' := by
  have key : ∀ s,Steps ⟨ops,[],m⟩ s → ∃ made,Progress (moves ops) m s made := by
    intro s hs
    induction hs with
    | refl =>
      exact ⟨_,Moved.refl m,nofun,fun _ hv => hv,(fun _ hv => nomatch hv),fun _ hv => Or.inr (.inl hv)⟩
    | tail _ hst ih =>
      obtain ⟨made,hp⟩ := ih
      exact hp.step hi hst
  obtain ⟨made,hp⟩ := key _ h
  refine hp.moved.congr (fun v => ⟨hp.made_mem v,?_⟩)
  intro hv
  rcases hp.covered v hv with hd | ho | hq
  · exact hd
  · cases ho
  · cases hq

theorem done_stays (h : Steps ⟨[],[],m⟩ t) : t = ⟨[],[],m⟩ := by
  rcases Relation.ReflTransGen.cases_head h with rfl | ⟨u,hu,_⟩
  · rfl
  · cases hu with
    | finish hv => cases hv

theorem Completes.now (h : Completes (.now vs :: ops) m m') :
    Completes ops (Moves.applyAll m vs) m' := by
  rcases Relation.ReflTransGen.cases_head h with he | ⟨u,hu,hr⟩
  · cases he
  · cases hu with
    | now => exact hr
    | finish hv => cases hv

theorem Completes.after (h : Completes (ops ++ [.after vs]) m m') :
    ∃ n,Completes ops m n ∧ m' = Moves.applyAll n vs := by
  have key : ∀ s : State β,Steps s ⟨[],[],m'⟩ → ∀ ops p m,s = ⟨ops ++ [.after vs],p,m⟩ →
      ∃ n,Steps ⟨ops,p,m⟩ ⟨[],[],n⟩ ∧ m' = Moves.applyAll n vs := by
    intro s hs
    induction hs using Relation.ReflTransGen.head_induction_on with
    | refl =>
      intro ops p m he
      simp at he
    | head hst hr ih =>
      intro ops p m he
      subst he
      cases ops with
      | nil =>
        cases hst with
        | finish hv =>
          obtain ⟨n,hn,he⟩ := ih [] _ _ rfl
          exact ⟨n,Relation.ReflTransGen.head (.finish hv) hn,he⟩
        | after =>
          have := done_stays hr
          cases this
          exact ⟨m,.refl,rfl⟩
      | cons op ops =>
        cases hst with
        | now =>
          obtain ⟨n,hn,he⟩ := ih ops _ _ rfl
          exact ⟨n,Relation.ReflTransGen.head .now hn,he⟩
        | later =>
          obtain ⟨n,hn,he⟩ := ih ops _ _ rfl
          exact ⟨n,Relation.ReflTransGen.head .later hn,he⟩
        | finish hv =>
          obtain ⟨n,hn,he⟩ := ih (op :: ops) _ _ rfl
          exact ⟨n,Relation.ReflTransGen.head (.finish hv) hn,he⟩
        | after =>
          obtain ⟨n,hn,he⟩ := ih ops _ _ rfl
          exact ⟨n,Relation.ReflTransGen.head .after hn,he⟩
  exact key _ h ops [] m rfl

theorem steps_finish (m : Memory β) : Steps ⟨ops,p,m⟩ ⟨ops,[],Moves.applyAll m p⟩ := by
  induction p generalizing m with
  | nil => exact .refl
  | cons v p ih =>
    have hv : Step ⟨ops,v :: p,m⟩ ⟨ops,(v :: p).erase v,v.apply m⟩ := .finish mem_cons_self
    rw [erase_cons_head] at hv
    exact .head hv (ih (v.apply m))

theorem completes_exists (m : Memory β) : ∃ m',Completes ops m m' := by
  induction ops generalizing m with
  | nil => exact ⟨m,.refl⟩
  | cons op ops ih =>
    obtain ⟨m',hm'⟩ := ih (Moves.applyAll m op.moves)
    refine ⟨m',?_⟩
    cases op with
    | now vs => exact .head .now hm'
    | later vs => exact .head .later ((steps_finish m).trans hm')
    | after vs => exact .head .after hm'

/-- The copies of `n` cells, from those behind `src` to those behind `dst`. -/
def span (dst src : Nat → Nat) (n : Nat) : List Move := (List.range n).map (fun k => ⟨dst k,src k⟩)

theorem mem_span : v ∈ span dst src n ↔ ∃ k < n,v = ⟨dst k,src k⟩ := by simp [span,eq_comm]

theorem forall_mem_span {p : Move → Prop} :
    (∀ v ∈ span dst src n,p v) ↔ ∀ k < n,p ⟨dst k,src k⟩ := by simp [span]

theorem span_add : span dst src (a + b) = span dst src a ++ span (fun k => dst (a + k))
    (fun k => src (a + k)) b := by
  simp [span,range_add,comp_def]

theorem span_congr (hd : ∀ k < n,dst k = dst' k) (hs : ∀ k < n,src k = src' k) :
    span dst src n = span dst' src' n := by
  refine map_congr_left ?_
  intro k hk
  rw [hd k (mem_range.mp hk),hs k (mem_range.mp hk)]

theorem moves_append : moves (ops ++ ops') = moves ops ++ moves ops' := flatMap_append

theorem span_independent (hd : ∀ i < n,∀ j < n,dst i = dst j → i = j)
    (hs : ∀ i < n,∀ j < n,dst i ≠ src j) : Independent (span dst src n) := by
  intro u hu v hv
  obtain ⟨i,hi,rfl⟩ := mem_span.mp hu
  obtain ⟨j,hj,rfl⟩ := mem_span.mp hv
  refine ⟨hs i hi j hj,?_⟩
  intro he
  rw [hd i hi j hj he]

theorem Completes.span (h : Completes ops m m') (hm : moves ops = span dst src n)
    (hd : ∀ i < n,∀ j < n,dst i = dst j → i = j) (hs : ∀ i < n,∀ j < n,dst i ≠ src j) :
    (∀ i < n,m' (dst i) = m (src i)) ∧ ∀ a,(∀ i < n,a ≠ dst i) → m' a = m a := by
  have hmv := completes_moved (hm ▸ span_independent hd hs) h
  refine ⟨fun i hi => hmv.copied ⟨dst i,src i⟩ (hm ▸ mem_span.mpr ⟨i,hi,rfl⟩),?_⟩
  intro a ha
  refine hmv.frame a ?_
  intro v hv
  obtain ⟨i,hi,rfl⟩ := mem_span.mp (hm ▸ hv)
  exact ha i hi

theorem completes_applyAll (vs : List Move) : Completes [.now vs] m (Moves.applyAll m vs) :=
    .single .now

/-- A copy in two stages: to `tmp` at once, and from there by a program. -/
theorem completes_filled (h : Completes (.now (span tmp src n) :: ops) m m')
    (hm : moves ops = span dst tmp n) (ht : ∀ i < n,∀ j < n,tmp i = tmp j → i = j)
    (hd : ∀ i < n,∀ j < n,dst i = dst j → i = j) (hts : ∀ i < n,∀ j < n,tmp i ≠ src j)
    (hdt : ∀ i < n,∀ j < n,dst i ≠ tmp j) :
    (∀ i < n,m' (dst i) = m (src i)) ∧ ∀ a,(∀ i < n,a ≠ dst i) → (∀ i < n,a ≠ tmp i) → m' a = m a := by
  obtain ⟨hf,hk⟩ := (completes_applyAll (span tmp src n)).span (append_nil _) ht hts
  obtain ⟨hc,hfr⟩ := h.now.span hm hd hdt
  refine ⟨?_,?_⟩
  · intro i hi
    rw [hc i hi,hf i hi]
  · intro a ha ha'
    rw [hfr a ha,hk a ha']

/-- A copy in two stages: to `tmp` by a program, and from a part of that to `dst` afterwards. -/
theorem completes_emptied (h : Completes (ops ++ [.after (span dst (fun i => tmp (pad + i)) n)]) m m')
    (hm : moves ops = span tmp src l) (hl : pad + n ≤ l) (ht : ∀ i < l,∀ j < l,tmp i = tmp j → i = j)
    (hd : ∀ i < n,∀ j < n,dst i = dst j → i = j) (hts : ∀ i < l,∀ j < l,tmp i ≠ src j)
    (hdt : ∀ i < n,∀ j < l,dst i ≠ tmp j) :
    (∀ i < n,m' (dst i) = m (src (pad + i))) ∧
      ∀ a,(∀ i < n,a ≠ dst i) → (∀ i < l,a ≠ tmp i) → m' a = m a := by
  obtain ⟨m1,hm1,rfl⟩ := h.after
  obtain ⟨hf,hk⟩ := hm1.span hm ht hts
  obtain ⟨hc,hfr⟩ := (completes_applyAll (span dst (fun i => tmp (pad + i)) n)).span
    (append_nil _) hd (fun i hi j hj => hdt i hi (pad + j) (by omega))
  refine ⟨?_,?_⟩
  · intro i hi
    rw [hc i hi,hf (pad + i) (by omega)]
  · intro a ha ha'
    rw [hfr a ha,hk a ha']

end Mpss.Library.Moves
