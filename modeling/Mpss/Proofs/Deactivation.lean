import Mpss.Host.PcState
import Mpss.Library.Visits

namespace Mpss.Proofs.Deactivation

open Micscif.Nm Host.PcState Library.Visits List Function Option

/-- What one scan of the dependents of a node adds to the search. -/
structure Scanned (h : Host) (node : Nat) (s t : Search) (new : List Nat) : Prop where
  stack : t.stack = new ++ s.stack
  visited : ∀ b,t.visited b = true ↔ s.visited b = true ∨ b ∈ new
  fresh : ∀ b ∈ new,s.visited b = false ∧ h.depmtrx b node = .disconnectReady
  count : unvisited h.nodes t.visited + new.length ≤ unvisited h.nodes s.visited

theorem Scanned.refl : Scanned h node s s [] :=
  ⟨rfl,by simp,by simp,by simp⟩

theorem Scanned.push (hi : i ∈ h.nodes) (hv : s.visited i = false)
    (hd : h.depmtrx i node = .disconnectReady) (ht : Scanned h node ((s.visit i).push i) t new) :
    Scanned h node s t (new ++ [i]) := by
  have ho : ∀ b,((s.visit i).push i).visited b = true ↔ s.visited b = true ∨ b = i := by
    intro b
    by_cases hb : b = i <;> simp [Search.visit,Search.push,hb]
  refine ⟨?_,?_,?_,?_⟩
  · simpa [Search.visit,Search.push] using ht.stack
  · intro b
    rw [ht.visited,ho]
    simp only [mem_append,mem_singleton]
    tauto
  · intro b hb
    rcases mem_append.mp hb with hb | hb
    · refine ⟨?_,(ht.fresh b hb).2⟩
      by_contra hc
      have := (ho b).mpr (.inl (Bool.not_eq_false _ ▸ hc))
      rw [(ht.fresh b hb).1] at this
      cases this
    · rw [mem_singleton.mp hb]
      exact ⟨hv,hd⟩
  · have hlt : unvisited h.nodes ((s.visit i).push i).visited < unvisited h.nodes s.visited :=
      unvisited_visit hi hv
    have := ht.count
    simp only [length_append,length_singleton]
    omega

theorem scanDependents_spec (h : Host) (node : Nat) (hm : ∀ i ∈ is,i ∈ h.nodes) (s : Search) :
    ∃ new,Scanned h node s (scanDependents h node is s).2 new ∧
      ((scanDependents h node is s).1 = true → ∀ x ∈ is,
        (scanDependents h node is s).2.visited x = true ∨
          h.depmtrx x node = .notDependent ∨ h.depmtrx x node = .disconnected) ∧
      ((scanDependents h node is s).1 = false → ∃ x ∈ is,h.depmtrx x node = .dependent) := by
  induction is generalizing s with
  | nil => exact ⟨[],Scanned.refl,by simp,by simp [scanDependents]⟩
  | cons i is ih =>
    have hr : ∀ k ∈ is,k ∈ h.nodes := (forall_mem_cons.mp hm).2
    have hl : ∀ {P : Nat → Prop},(∃ x ∈ is,P x) → ∃ x ∈ i :: is,P x := by
      rintro P ⟨x,hx,hp⟩
      exact ⟨x,.tail _ hx,hp⟩
    cases hv : s.visited i with
    | true =>
      obtain ⟨new,hs,hok,hfl⟩ := ih hr s
      simp only [scanDependents,hv,if_true]
      refine ⟨new,hs,?_,fun hf => hl (hfl hf)⟩
      intro ho x hx
      rcases mem_cons.mp hx with rfl | hx
      · exact .inl ((hs.visited x).mpr (.inl hv))
      · exact hok ho x hx
    | false =>
      cases hd : h.depmtrx i node with
      | dependent =>
        simp only [scanDependents,hv,hd,Bool.false_eq_true,if_false]
        exact ⟨[],Scanned.refl,by simp,fun _ => ⟨i,mem_cons_self,hd⟩⟩
      | disconnectReady =>
        obtain ⟨new,hs,hok,hfl⟩ := ih hr ((s.visit i).push i)
        have hps := hs.push (hm i mem_cons_self) hv hd
        simp only [scanDependents,hv,hd,Bool.false_eq_true,if_false]
        refine ⟨new ++ [i],hps,?_,fun hf => hl (hfl hf)⟩
        intro ho x hx
        rcases mem_cons.mp hx with rfl | hx
        · exact .inl ((hps.visited x).mpr (.inr (by simp)))
        · exact hok ho x hx
      | notDependent | disconnected =>
        obtain ⟨new,hs,hok,hfl⟩ := ih hr s
        simp only [scanDependents,hv,hd,Bool.false_eq_true,if_false]
        refine ⟨new,hs,?_,fun hf => hl (hfl hf)⟩
        intro ho x hx
        rcases mem_cons.mp hx with rfl | hx
        · simp [hd]
        · exact hok ho x hx

theorem mem_clearVisited : (clearVisited v stack) b = true ↔ v b = true ∧ b ∉ stack := by
  induction stack generalizing v with
  | nil => simp [clearVisited]
  | cons i stack ih =>
    rw [clearVisited,ih]
    by_cases hb : b = i <;> simp [hb]

theorem scan_keeps {v : Nat → Bool} (hv : ∀ b,v b = true → visited b = true)
    (ht : ∀ b ∈ stack,v b = false) (hr : scanDependents h node h.nodes ⟨visited,stack⟩ = (ok,t)) :
    (∀ b,v b = true → t.visited b = true) ∧ ∀ b ∈ t.stack,v b = false := by
  obtain ⟨new,hs,-,-⟩ := scanDependents_spec h node (fun i hi => hi) ⟨visited,stack⟩
  rw [hr] at hs
  refine ⟨fun b hb => (hs.visited b).mpr (.inl (hv b hb)),?_⟩
  rw [hs.stack]
  refine forall_mem_append.mpr ⟨fun b hb => ?_,ht⟩
  by_contra hc
  have hb : visited b = false := (hs.fresh b hb).1
  rw [hv b (Bool.not_eq_false _ ▸ hc)] at hb
  cases hb

/-- The nodes visited before the search stay visited, also when it fails. -/
theorem minimalLoop_keeps {v : Nat → Bool} (hv : ∀ b,v b = true → s.visited b = true)
    (ht : ∀ b ∈ s.stack.tail,v b = false) (he : minimalLoop h n mask s = some r) :
    ∀ b,v b = true → r.visited b = true := by
  fun_induction minimalLoop h n mask s with
  | case1 =>
    cases he
    exact hv
  | case2 => cases he
  | case3 n mask visited node stack _ t hr ih =>
    obtain ⟨hk,hf⟩ := scan_keeps hv ht hr
    exact ih hk (fun b hb => hf b (mem_of_mem_tail hb)) he
  | case4 n mask visited node stack _ t hr =>
    obtain ⟨hk,hf⟩ := scan_keeps hv ht hr
    cases he
    intro b hb
    refine mem_clearVisited.mpr ⟨hk b hb,fun hm => ?_⟩
    rw [hf b hm] at hb
    cases hb

theorem minimalLoop_returns (hn : unvisited h.nodes s.visited + s.stack.length ≤ n) :
    ∃ r,minimalLoop h n mask s = some r := by
  fun_induction minimalLoop h n mask s with
  | case1 | case4 => exact ⟨_,rfl⟩
  | case2 => simp at hn
  | case3 n mask visited node stack _ t hr ih =>
    apply ih
    obtain ⟨new,hs,-,-⟩ := scanDependents_spec h node (fun i hi => hi) ⟨visited,stack⟩
    rw [hr] at hs
    have hc := hs.count
    have hst := congrArg length hs.stack
    simp only [length_append,length_cons] at hc hst hn
    omega

theorem getMinimalDeactiveset_returns (h : Host) :
    ∃ r,getMinimalDeactiveset h node mask v = some r := by
  apply minimalLoop_returns
  have := unvisited_le h.nodes (update v node true)
  simpa using this

theorem getMinimalDeactiveset_visits (he : getMinimalDeactiveset h node mask v = some r) :
    r.visited node = true ∧ ∀ b,v b = true → r.visited b = true := by
  have hk := minimalLoop_keeps (s := ⟨update v node true,[node]⟩)
    (v := update v node true) (fun b hb => hb) (by simp) he
  refine ⟨hk node (update_self ..),?_⟩
  intro b hb
  apply hk
  by_cases hbn : b = node <;> simp [hbn,hb]

structure Pushed (h : Host) (node : Nat) (v : Nat → Bool) (new : List Nat) : Prop where
  member : ∀ b ∈ new,b ∈ h.nodes ∧ v b = false ∧ h.depmtrx node b = .disconnectReady ∧
    h.idleState b = .pc3Ready
  length : new.length ≤ unvisited h.nodes v

theorem Pushed.nil : Pushed h node v [] := ⟨by simp,Nat.zero_le _⟩

theorem pushReady_spec (h : Host) :
    ∃ new,pushReady h node v stack = new ++ stack ∧ Pushed h node v new := by
  refine ⟨_,rfl,?_,?_⟩
  · intro b hb
    simp only [mem_reverse,mem_filter,Bool.and_eq_true,Bool.not_eq_true',beq_iff_eq] at hb
    exact ⟨hb.1,hb.2.1.1.1,hb.2.1.1.2,hb.2.2⟩
  · rw [length_reverse]
    apply length_filter_unvisited
    intro b hb
    simp only [Bool.and_eq_true,Bool.not_eq_true'] at hb
    exact hb.1.1.1

theorem deactivesetLoop_cons (h : Host) (stack : List Nat) :
    ∃ found new,deactivesetLoop h m (n + 1) status mask ⟨v,node :: stack⟩ =
        deactivesetLoop h m n found.status found.nodemask ⟨found.visited,new ++ stack⟩ ∧
      Pushed h node found.visited new ∧
      (v node = true ∧ found = ⟨.ok,mask,v⟩ ∨
        v node = false ∧ getMinimalDeactiveset h node mask v = some found ∧
          (found.status = .eopnotsupp → new = [])) := by
  have hm : ∀ w,∃ new,(if m then pushReady h node w stack else stack) = new ++ stack ∧
      Pushed h node w new := by
    intro w
    cases m with
    | true => exact pushReady_spec h
    | false => exact ⟨[],rfl,Pushed.nil⟩
  cases hv : v node with
  | true =>
    obtain ⟨new,hn,hp⟩ := hm v
    refine ⟨⟨.ok,mask,v⟩,new,?_,hp,.inl ⟨rfl,rfl⟩⟩
    simp [deactivesetLoop,hv,hn]
  | false =>
    obtain ⟨found,hf⟩ := getMinimalDeactiveset_returns h
    obtain ⟨st,mask',v'⟩ := found
    cases st with
    | ok =>
      obtain ⟨new,hn,hp⟩ := hm v'
      refine ⟨⟨.ok,mask',v'⟩,new,?_,hp,.inr ⟨rfl,hf,by simp⟩⟩
      simp [deactivesetLoop,hv,hf,hn]
    | eopnotsupp =>
      refine ⟨⟨.eopnotsupp,mask',v'⟩,[],?_,Pushed.nil,.inr ⟨rfl,hf,by simp⟩⟩
      simp [deactivesetLoop,hv,hf]

/-- A bound on the pops to come: a node visited in the meantime may be popped again and push all
that is left, but then a new node is on top. -/
def pops (h : Host) (s : Search) : Nat :=
  s.stack.length + unvisited h.nodes s.visited ^ 2 +
    if s.stack.head?.any s.visited then unvisited h.nodes s.visited else 0

theorem pops_le (h : Host) (s : Search) :
    pops h s ≤ s.stack.length + unvisited h.nodes s.visited ^ 2 + unvisited h.nodes s.visited := by
  unfold pops
  split <;> omega

theorem pops_again (hv : v node = true) (hp : Pushed h node v new) :
    pops h ⟨v,new ++ stack⟩ < pops h ⟨v,node :: stack⟩ := by
  have ha : pops h ⟨v,node :: stack⟩ =
      stack.length + 1 + unvisited h.nodes v ^ 2 + unvisited h.nodes v := by simp [pops,hv]
  cases new with
  | nil =>
    have := pops_le h ⟨v,stack⟩
    simp only [nil_append] at this ⊢
    omega
  | cons b new =>
    have hl := hp.length
    have hb := (hp.member b mem_cons_self).2.1
    simp only [pops,cons_append,head?_cons,any_some,hb,Bool.false_eq_true,if_false,length_cons,
      length_append] at ha hl ⊢
    omega

theorem pops_first (hn : node ∈ h.nodes) (hv : v node = false)
    (hw : w node = true ∧ ∀ b,v b = true → w b = true) (hp : Pushed h node w new) :
    pops h ⟨w,new ++ stack⟩ < pops h ⟨v,node :: stack⟩ := by
  have hlt : unvisited h.nodes w < unvisited h.nodes v := unvisited_lt hn hv hw.1 hw.2
  have hsq : (unvisited h.nodes w + 1) ^ 2 ≤ unvisited h.nodes v ^ 2 := Nat.pow_le_pow_left hlt 2
  have hb : pops h ⟨v,node :: stack⟩ = stack.length + 1 + unvisited h.nodes v ^ 2 := by simp [pops,hv]
  have hle := pops_le h ⟨w,new ++ stack⟩
  have hl := hp.length
  simp only [length_append] at hle
  rw [add_sq] at hsq
  omega

theorem deactivesetLoop_returns (hm : ∀ b ∈ s.stack,b ∈ h.nodes) (hn : pops h s ≤ n) :
    ∃ r,deactivesetLoop h m n status mask s = some r := by
  induction n generalizing status mask s with
  | zero =>
    obtain ⟨v,stack⟩ := s
    cases stack with
    | nil => exact ⟨_,rfl⟩
    | cons node stack => simp [pops] at hn
  | succ n ih =>
    obtain ⟨v,stack⟩ := s
    cases stack with
    | nil => exact ⟨_,rfl⟩
    | cons node stack =>
      obtain ⟨found,new,he,hp,hf⟩ := deactivesetLoop_cons h stack
      rw [he]
      apply ih
      · exact forall_mem_append.mpr ⟨fun b hb => (hp.member b hb).1,(forall_mem_cons.mp hm).2⟩
      · rcases hf with ⟨hv,rfl⟩ | ⟨hv,hf,-⟩
        · exact Nat.le_of_lt_succ ((pops_again hv hp).trans_le hn)
        · have hlt : pops h ⟨found.visited,new ++ stack⟩ < pops h ⟨v,node :: stack⟩ :=
            pops_first (hm node mem_cons_self) hv (getMinimalDeactiveset_visits hf) hp
          exact Nat.le_of_lt_succ (hlt.trans_le hn)

theorem getDeactiveset_returns (hn : node ∈ h.nodes) : ∃ r,getDeactiveset h node m = some r := by
  apply deactivesetLoop_returns
  · intro b hb
    rwa [mem_singleton.mp hb]
  · have hle := Nat.pow_le_pow_left (unvisited_le h.nodes (fun _ => false)) 2
    simp only [pops,length_singleton,head?_cons,any_some,Bool.false_eq_true,if_false]
    omega

/-- The cards that go or stay with a card: ready, and linked to it by dependencies of ready
cards. -/
def Near (h : Host) (deps : Nat → Nat → Bool) (node : Nat) : Nat → Prop :=
  Relation.ReflTransGen
    (fun a b => h.idleState b = .pc3Ready ∧ (deps a b = true ∨ deps b a = true)) node

/-- The dependency matrix while a transaction is under way. -/
structure Prepared (h : Host) (deps : Nat → Nat → Bool) : Prop where
  edge : ∀ i j,h.depmtrx i j =
    if deps i j then (if h.idleState i = .pc3Ready then .disconnectReady else .dependent)
    else .notDependent
  card : ∀ i j,deps i j = true → cardPair h i j

section

theorem Near.ready (hr : h.idleState node = .pc3Ready) (hb : Near h deps node b) :
    h.idleState b = .pc3Ready := by
  rcases Relation.ReflTransGen.cases_tail hb with rfl | ⟨a,-,hab⟩
  · exact hr
  · exact hab.1

/-- What is visited is in the mask or on the stack, near the first node, and with a node of the mask
every dependent is visited. -/
structure Searched (h : Host) (deps : Nat → Nat → Bool) (node : Nat) (mask : Nodemask)
    (s : Search) : Prop where
  reach : ∀ b,s.visited b = true → mask b = true ∨ b ∈ s.stack
  near : ∀ b,mask b = true ∨ b ∈ s.stack → Near h deps node b
  closed : ∀ b x,mask b = true → deps x b = true → s.visited x = true

theorem Searched.pop (hs : Searched h deps node mask ⟨v,b :: stack⟩) (ht : Scanned h b ⟨v,stack⟩ t new)
    (hnw : ∀ x ∈ new,deps x b = true ∧ h.idleState x = .pc3Ready)
    (hal : ∀ x,deps x b = true → t.visited x = true) :
    Searched h deps node (update mask b true) t := by
  have hms : ∀ a,update mask b true a = true ↔ mask a = true ∨ a = b := by
    intro a
    by_cases hab : a = b <;> simp [hab]
  have hb : Near h deps node b := hs.near b (.inr mem_cons_self)
  refine ⟨?_,?_,?_⟩
  · intro a ha
    rw [hms,ht.stack,mem_append]
    rcases (ht.visited a).mp ha with hv | hn
    · rcases hs.reach a hv with hm | hm
      · exact .inl (.inl hm)
      · rcases mem_cons.mp hm with rfl | hm
        · exact .inl (.inr rfl)
        · exact .inr (.inr hm)
    · exact .inr (.inl hn)
  · intro a ha
    rw [hms,ht.stack,mem_append] at ha
    rcases ha with (hm | rfl) | hn | hm
    · exact hs.near a (.inl hm)
    · exact hb
    · exact hb.tail ⟨(hnw a hn).2,.inr (hnw a hn).1⟩
    · exact hs.near a (.inr (.tail _ hm))
  · intro a x ha hx
    rcases (hms a).mp ha with hm | rfl
    · exact (ht.visited x).mpr (.inl (hs.closed a x hm hx))
    · exact hal x hx

/-- No active card depends on a card near the node. -/
def Clear (h : Host) (deps : Nat → Nat → Bool) (node : Nat) : Prop :=
  ∀ b,Near h deps node b → ∀ x,deps x b = true → h.idleState x = .pc3Ready

def Alone (h : Host) (deps : Nat → Nat → Bool) (node : Nat) : Prop := ∀ b,Near h deps node b → b = node

section
variable (hp : Prepared h deps)
include hp

theorem Prepared.ready_edge (he : h.depmtrx i j = .disconnectReady) :
    deps i j = true ∧ h.idleState i = .pc3Ready := by
  rw [hp.edge] at he
  split at he
  · rename_i hd
    split at he
    · rename_i hi
      exact ⟨hd,hi⟩
    · cases he
  · cases he

theorem Prepared.active_edge (he : h.depmtrx i j = .dependent) :
    deps i j = true ∧ h.idleState i ≠ .pc3Ready := by
  rw [hp.edge] at he
  split at he
  · rename_i hd
    split at he
    · cases he
    · rename_i hi
      exact ⟨hd,hi⟩
  · cases he

theorem Prepared.no_edge (he : h.depmtrx i j = .notDependent ∨ h.depmtrx i j = .disconnected) :
    deps i j = false := by
  rw [hp.edge] at he
  by_contra hd
  rw [if_pos (Bool.not_eq_false _ ▸ hd)] at he
  by_cases hi : h.idleState i = .pc3Ready <;> simp [hi] at he

theorem Prepared.mem_nodes (hd : deps i j = true) : i ∈ h.nodes :=
  mem_range.mpr (Nat.lt_succ_of_le (hp.card i j hd).1.2)

theorem Prepared.scan (b : Nat) (s : Search) :
    ∃ new,Scanned h b s (scanDependents h b h.nodes s).2 new ∧
      (∀ x ∈ new,deps x b = true ∧ h.idleState x = .pc3Ready) ∧
      ((scanDependents h b h.nodes s).1 = true → ∀ x,deps x b = true →
        (scanDependents h b h.nodes s).2.visited x = true) ∧
      ((scanDependents h b h.nodes s).1 = false →
        ∃ x,deps x b = true ∧ h.idleState x ≠ .pc3Ready) := by
  obtain ⟨new,hs,hok,hfl⟩ := scanDependents_spec h b (fun i hi => hi) s
  refine ⟨new,hs,fun x hx => hp.ready_edge (hs.fresh x hx).2,?_,?_⟩
  · intro ho x hx
    rcases hok ho x (hp.mem_nodes hx) with hv | hn
    · exact hv
    · rw [hp.no_edge hn] at hx
      cases hx
  · intro hf
    obtain ⟨x,-,hx⟩ := hfl hf
    exact ⟨x,hp.active_edge hx⟩

theorem minimalLoop_clear (hc : Clear h deps node)
    (hs : Searched h deps node mask s) (he : minimalLoop h n mask s = some r) :
    Searched h deps node r.nodemask ⟨r.visited,[]⟩ := by
  fun_induction minimalLoop h n mask s with
  | case1 =>
    cases he
    exact hs
  | case2 => cases he
  | case3 n mask v b stack _ t hr ih =>
    obtain ⟨new,ht,hn,hok,-⟩ := hp.scan b ⟨v,stack⟩
    rw [hr] at ht hok
    exact ih (hs.pop ht hn (hok rfl)) he
  | case4 n mask v b stack _ t hr =>
    obtain ⟨new,-,-,-,hf⟩ := hp.scan b ⟨v,stack⟩
    obtain ⟨x,hx,ha⟩ := hf (by rw [hr])
    exact absurd (hc b (hs.near b (.inr mem_cons_self)) x hx) ha

end

theorem Searched.start (hs : Searched h deps node mask ⟨v,[]⟩) (hb : Near h deps node b) :
    Searched h deps node mask ⟨update v b true,[b]⟩ := by
  refine ⟨?_,?_,?_⟩
  · intro a ha
    by_cases hab : a = b
    · exact .inr (hab ▸ mem_singleton_self a)
    · simp only [update_of_ne hab] at ha
      exact .inl ((hs.reach a ha).resolve_right (by simp))
  · rintro a (hm | hm)
    · exact hs.near a (.inl hm)
    · exact mem_singleton.mp hm ▸ hb
  · intro a x hm hx
    have : v x = true := hs.closed a x hm hx
    by_cases hxb : x = b <;> simp [hxb,this]

/-- A set of ready cards that takes with each card all that depend on it. -/
structure Deactivated (h : Host) (deps : Nat → Nat → Bool) (node : Nat) (mask : Nodemask) : Prop where
  near : ∀ b,mask b = true → Near h deps node b
  closed : ∀ b x,mask b = true → deps x b = true → mask x = true

theorem Searched.deactivated (hs : Searched h deps node mask ⟨v,[]⟩) :
    Deactivated h deps node mask := by
  refine ⟨fun b hb => hs.near b (.inl hb),?_⟩
  intro b x hb hx
  exact (hs.reach x (hs.closed b x hb hx)).resolve_right (by simp)

section
variable (hp : Prepared h deps)
include hp

theorem deactivesetLoop_clear (hc : Clear h deps node)
    (hs : Searched h deps node mask ⟨s.visited,[]⟩) (hn : ∀ b ∈ s.stack,Near h deps node b)
    (he : deactivesetLoop h m n status mask s = some r) : Deactivated h deps node r.2 := by
  induction n generalizing status mask s with
  | zero =>
    obtain ⟨v,stack⟩ := s
    cases stack with
    | nil =>
      cases he
      exact hs.deactivated
    | cons b stack => cases he
  | succ n ih =>
    obtain ⟨v,stack⟩ := s
    cases stack with
    | nil =>
      cases he
      exact hs.deactivated
    | cons b stack =>
      obtain ⟨found,new,heq,hps,hf⟩ := deactivesetLoop_cons h stack
      have hb : Near h deps node b := hn b mem_cons_self
      rw [heq] at he
      refine ih ?_ ?_ he
      · rcases hf with ⟨-,rfl⟩ | ⟨-,hf,-⟩
        · exact hs
        · exact minimalLoop_clear hp hc (hs.start hb) hf
      · intro a ha
        rcases mem_append.mp ha with ha | ha
        · obtain ⟨-,-,hed,hr⟩ := hps.member a ha
          exact hb.tail ⟨hr,.inl (hp.ready_edge hed).1⟩
        · exact hn a (.tail _ ha)

theorem minimalLoop_alone (ha : Alone h deps node)
    (he : minimalLoop h (n + 1) mask ⟨v,[node]⟩ = some r) (hv : v node = true) :
    r.nodemask = update mask node true ∧
      (r.status = .ok → ∀ x,deps x node = true → r.visited x = true) ∧
      ∀ b,r.visited b = true ↔ v b = true := by
  obtain ⟨new,ht,hn,hok,hfl⟩ := hp.scan node ⟨v,[]⟩
  have hnl : new = [] := by
    apply eq_nil_iff_forall_not_mem.mpr
    intro x hx
    have hxn := ha x (Relation.ReflTransGen.single ⟨(hn x hx).2,.inr (hn x hx).1⟩)
    have hf := (ht.fresh x hx).1
    simp only [hxn,hv] at hf
    cases hf
  have hs := ht.stack
  have hvs := ht.visited
  simp only [minimalLoop] at he
  generalize scanDependents h node h.nodes ⟨v,[]⟩ = scan at *
  obtain ⟨ok,w,stack⟩ := scan
  simp only [hnl,append_nil,not_mem_nil,or_false] at hs hvs
  cases hs
  cases ok with
  | true => cases n <;> cases he <;> exact ⟨rfl,fun _ => hok rfl,hvs⟩
  | false =>
    cases he
    exact ⟨rfl,by simp [exitPop],hvs⟩

theorem getDeactiveset_alone (ha : Alone h deps node)
    (he : getDeactiveset h node m = some r) (hok : r.1 = .ok) : Deactivated h deps node r.2 := by
  unfold getDeactiveset at he
  obtain ⟨found,new,heq,hps,hf⟩ := deactivesetLoop_cons h []
  rw [heq] at he
  obtain ⟨hv,-⟩ | ⟨-,hf,-⟩ := hf
  · cases hv
  obtain ⟨hm,hc,hvs⟩ := minimalLoop_alone hp ha hf (update_self ..)
  have hsl : ∀ b,found.visited b = true ↔ b = node := by
    intro b
    rw [hvs]
    by_cases hb : b = node <;> simp [hb]
  have hn : new = [] := by
    apply eq_nil_iff_forall_not_mem.mpr
    intro x hx
    obtain ⟨-,hfr,hed,hrd⟩ := hps.member x hx
    have hxn := ha x (Relation.ReflTransGen.single ⟨hrd,.inl (hp.ready_edge hed).1⟩)
    rw [(hsl x).mpr hxn] at hfr
    cases hfr
  have hr : r = (if nodemaskIsvalid h found.nodemask then found.status else .eopnotsupp,
      found.nodemask) := by
    rw [hn] at he
    cases hl : h.nodes.length ^ 2 <;> rw [hl] at he <;> exact (some.inj he).symm
  have hs : found.status = .ok := by
    rw [hr] at hok
    split at hok
    · exact hok
    · cases hok
  have hbt : ∀ b,r.2 b = true ↔ b = node := by
    intro b
    rw [hr]
    simp only [hm]
    by_cases hb : b = node <;> simp [hb]
  refine ⟨?_,?_⟩
  · intro b hb
    rw [(hbt b).mp hb]
    exact .refl
  · intro b x hb hx
    rw [(hbt b).mp hb] at hx
    exact (hbt x).mpr ((hsl x).mp (hc hs x hx))

theorem getDeactiveset_spec (hc : Clear h deps node ∨ Alone h deps node)
    (he : getDeactiveset h node m = some r) (hok : r.1 = .ok) : Deactivated h deps node r.2 := by
  rcases hc with hc | ha
  · apply deactivesetLoop_clear hp hc ?_ ?_ he
    · exact ⟨by simp,by simp,by simp⟩
    · intro b hb
      rw [mem_singleton.mp hb]
      exact .refl
  · exact getDeactiveset_alone hp ha he hok

end

end

end Mpss.Proofs.Deactivation
