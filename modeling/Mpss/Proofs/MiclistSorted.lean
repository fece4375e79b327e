import Mathlib.Data.List.TakeWhile
import Mpss.Library.Chains
import Mpss.Mpssconfig.Miclist

namespace Mpss.Proofs.MiclistSorted
open Library.Chains Mpssconfig.Miclist List Function Option

def link (h : Heap) (p : Nat) : Nat :=
  match h.cell p with
  | some n => n.next
  | none => 0

/-- The structures from `p` on, with their addresses. -/
structure Lists (h : Heap) (p : Nat) (ns : List (Nat × MicInfo)) : Prop where
  path : Path (link h) 0 p (ns.map Prod.fst)
  cells : ∀ n ∈ ns,h.cell n.1 = some ⟨n.2,link h n.1⟩

variable {h h' : Heap} {p q t d : Nat} {m info : MicInfo}
  {ns pre post : List (Nat × MicInfo)} {id : Int}

theorem Lists.nil (hl : Lists h p []) : p = 0 := hl.path.ended

section
variable (hl : Lists h p ((q,m) :: ns))
include hl

theorem Lists.root : p = q := hl.path.root

theorem Lists.live : p ≠ 0 := by
  rw [hl.root]
  exact hl.path.live q mem_cons_self

theorem Lists.head : h.cell p = some ⟨m,link h p⟩ := by
  rw [hl.root]
  exact hl.cells (q,m) mem_cons_self

theorem Lists.tail : Lists h (link h p) ns := by
  have hr := hl.root
  subst hr
  exact ⟨hl.path.tail,(forall_mem_cons.mp hl.cells).2⟩

end

theorem Lists.congr (hl : Lists h p ns) (hc : ∀ n ∈ ns,h'.cell n.1 = h.cell n.1) : Lists h' p ns := by
  have hln : ∀ n ∈ ns,link h' n.1 = link h n.1 := by
    intro n hn
    unfold link
    rw [hc n hn]
  refine ⟨hl.path.congr ?_,?_⟩
  · intro j hj
    obtain ⟨n,hn,rfl⟩ := mem_map.mp hj
    exact hln n hn
  · intro n hn
    rw [hc n hn,hl.cells n hn,hln n hn]

theorem Lists.leave (hl : Lists h p ns) (hd : ∀ n ∈ ns,n.1 ≠ d) : Lists (h.leave d) p ns :=
  hl.congr (fun n hn => update_of_ne (hd n hn) _ _)

section
variable (hl : Lists h p (pre ++ (q,m) :: post))
include hl

theorem Lists.suffix : Lists h q ((q,m) :: post) := by
  have hp := hl.path
  rw [map_append] at hp
  exact ⟨hp.suffix,fun n hn => hl.cells n (mem_append_right pre hn)⟩

theorem Lists.distinct : ∀ n ∈ pre ++ post,n.1 ≠ q := by
  have hnd := hl.path.nodup
  rw [map_append,map_cons] at hnd
  have hq := (nodup_middle.mp hnd)
  intro n hn he
  refine (nodup_cons.mp hq).1 ?_
  rw [← map_append]
  exact mem_map.mpr ⟨n,hn,he⟩

theorem Lists.insert (ht : t ≠ 0) (htn : ∀ n ∈ pre ++ (q,m) :: post,n.1 ≠ t) :
    Lists ((h.store t ⟨info,link h q⟩).store q ⟨m,t⟩) p (pre ++ (q,m) :: (t,info) :: post) := by
  have hqt : q ≠ t := htn (q,m) (mem_append_right pre mem_cons_self)
  have hd := hl.distinct
  generalize hh : (h.store t ⟨info,link h q⟩).store q ⟨m,t⟩ = h1
  have hq : h1.cell q = some ⟨m,t⟩ := by
    rw [← hh]
    exact update_self q _ _
  have ht' : h1.cell t = some ⟨info,link h q⟩ := by
    rw [← hh]
    exact (update_of_ne hqt.symm _ _).trans (update_self t _ _)
  have hr : ∀ n ∈ pre ++ post,h1.cell n.1 = h.cell n.1 := by
    intro n hn
    have hnt : n.1 ≠ t := by
      refine htn n ?_
      rcases mem_append.mp hn with hn | hn
      · exact mem_append_left _ hn
      · exact mem_append_right pre (.tail _ hn)
    rw [← hh]
    exact (update_of_ne (hd n hn) _ _).trans (update_of_ne hnt _ _)
  have hlq : link h1 q = t := by rw [link,hq]
  have hlt : link h1 t = link h q := by rw [link,ht']
  have hlr : ∀ n ∈ pre ++ post,link h1 n.1 = link h n.1 := by
    intro n hn
    unfold link
    rw [hr n hn]
  refine ⟨?_,?_⟩
  · have hp := hl.path
    rw [map_append,map_cons] at hp
    rw [map_append,map_cons,map_cons]
    refine hp.insert ht ?_ hlq hlt
    intro j hj
    rw [← map_append] at hj
    obtain ⟨n,hn,rfl⟩ := mem_map.mp hj
    exact hlr n hn
  · intro n hn
    simp only [mem_append,mem_cons] at hn
    rcases hn with hn | rfl | rfl | hn
    · rw [hr n (mem_append_left post hn),hlr n (mem_append_left post hn)]
      exact hl.cells n (mem_append_left _ hn)
    · rw [hlq]
      exact hq
    · rw [hlt]
      exact ht'
    · rw [hr n (mem_append_right pre hn),hlr n (mem_append_right pre hn)]
      exact hl.cells n (mem_append_right pre (.tail _ hn))

end

theorem Lists.read (hl : Lists h p ns) (hn : ns.length ≤ n) :
    readList h n p = some (ns.map Prod.snd) := by
  induction ns generalizing p n with
  | nil =>
    rw [hl.nil]
    cases n <;> rfl
  | cons a ns ih =>
    cases n with
    | zero => cases hn
    | succ n =>
      obtain ⟨k,rfl⟩ := Nat.exists_eq_succ_of_ne_zero hl.live
      have hr := ih hl.tail (Nat.le_of_succ_le_succ hn)
      rw [readList,hl.head]
      simp only [bind_eq_bind,bind_some,hr]
      rfl

theorem Lists.read_eq (hl : Lists h p ns) (hr : readList h n p = some l) : l = ns.map Prod.snd := by
  induction ns generalizing p n l with
  | nil =>
    rw [hl.nil] at hr
    cases n with
    | zero | succ n =>
      cases hr
      rfl
  | cons a ns ih =>
    obtain ⟨k,rfl⟩ := Nat.exists_eq_succ_of_ne_zero hl.live
    cases n with
    | zero => cases hr
    | succ n =>
      rw [readList,hl.head] at hr
      simp only [bind_eq_bind,bind_some] at hr
      cases hrs : readList h n (link h (k + 1)) with
      | none =>
        rw [hrs] at hr
        cases hr
      | some rest =>
        rw [hrs] at hr
        cases hr
        rw [ih hl.tail hrs]
        rfl

def below (id : Int) (n : Nat × MicInfo) : Bool := n.2.id < id

def lastAddr (p : Nat) : List (Nat × MicInfo) → Nat
  | [] => p
  | n :: ns => lastAddr n.1 ns

theorem last_split (p : Nat) (m : MicInfo) (ns : List (Nat × MicInfo)) :
    ∃ pre m',(p,m) :: ns = pre ++ [(lastAddr p ns,m')] ∧ (m' = m ∨ (lastAddr p ns,m') ∈ ns) := by
  induction ns generalizing p m with
  | nil => exact ⟨[],m,rfl,.inl rfl⟩
  | cons a ns ih =>
    obtain ⟨pre,m',he,hm⟩ := ih a.1 a.2
    refine ⟨(p,m) :: pre,m',congrArg (cons (p,m)) he,.inr ?_⟩
    rcases hm with rfl | hm
    · show (lastAddr a.1 ns,a.2) ∈ (a.1,a.2) :: ns
      rw [he]
      exact mem_append_right pre mem_cons_self
    · exact .tail a hm

theorem seek_present (hl : Lists h p ((q,m) :: ns)) (hm : m.id < id ∨ ns.takeWhile (below id) = [])
    (hf : ns.length < fuel) :
    seekPresent h id fuel p = some (lastAddr p (ns.takeWhile (below id))) := by
  induction fuel generalizing p q m ns with
  | zero => cases hf
  | succ fuel ih =>
    have ht := hl.tail
    rw [seekPresent,hl.head]
    cases ns with
    | nil => simp [ht.nil,lastAddr]
    | cons a ns =>
      have hr : link h p = a.1 := ht.root
      simp only [bind_eq_bind,bind_some,ht.head]
      by_cases ha : a.2.id < id
      · have htk : (a :: ns).takeWhile (below id) = a :: ns.takeWhile (below id) :=
          takeWhile_cons_of_pos (decide_eq_true ha)
        have hlt : m.id < id := hm.resolve_right (by rw [htk]; exact cons_ne_nil _ _)
        rw [if_pos ⟨hlt,ht.live⟩,if_pos ha,ih ht (.inl ha) (Nat.lt_of_succ_lt_succ hf),htk,hr]
        rfl
      · have htk : (a :: ns).takeWhile (below id) = [] :=
          takeWhile_cons_of_neg (by simpa [below] using ha)
        rw [if_neg ha,htk]
        simp [lastAddr]

def missing (id : Int) (ns : List (Nat × MicInfo)) : Bool :=
  (ns.dropWhile (below id)).head?.map (fun n => n.2.id) ≠ some id

theorem seek_not_present (hl : Lists h p ((q,m) :: ns)) (hf : ns.length < fuel) :
    seekNotPresent h id fuel p = some (lastAddr p (ns.takeWhile (below id)),missing id ns) := by
  induction fuel generalizing p q m ns with
  | zero => cases hf
  | succ fuel ih =>
    have ht := hl.tail
    rw [seekNotPresent,hl.head]
    cases ns with
    | nil => simp [ht.nil,lastAddr,missing]
    | cons a ns =>
      have hr : link h p = a.1 := ht.root
      simp only [bind_eq_bind,bind_some,ht.head,if_neg ht.live]
      by_cases ha : a.2.id < id
      · have hb : below id a = true := decide_eq_true ha
        rw [if_neg (by omega),if_neg (by omega),ih ht (Nat.lt_of_succ_lt_succ hf),missing,missing,
          takeWhile_cons_of_pos hb,dropWhile_cons_of_pos hb,hr]
        rfl
      have hb : ¬ below id a = true := by simpa [below] using ha
      rw [missing,takeWhile_cons_of_neg hb,dropWhile_cons_of_neg hb]
      by_cases he : a.2.id = id
      · simp [lastAddr,he]
      · rw [if_pos (by omega)]
        simp [lastAddr,he]

def Sorted (ns : List (Nat × MicInfo)) : Prop := ns.Pairwise (fun a b => a.2.id < b.2.id)

theorem mem_take_below (hn : n ∈ ns.takeWhile (below id)) : n.2.id < id := by
  have hb : below id n = true := mem_takeWhile_imp hn
  exact of_decide_eq_true hb

theorem Sorted.drop_below (hs : Sorted ns) : ∀ n ∈ ns.dropWhile (below id),id ≤ n.2.id := by
  induction ns with
  | nil =>
    intro n hn
    cases hn
  | cons a ns ih =>
    obtain ⟨ha,hs⟩ := pairwise_cons.mp hs
    by_cases hb : a.2.id < id
    · have hp : below id a = true := decide_eq_true hb
      rw [dropWhile_cons_of_pos hp]
      exact ih hs
    rw [dropWhile_cons_of_neg (by simpa [below] using hb)]
    intro n hn
    rcases mem_cons.mp hn with rfl | hn
    · exact not_lt.mp hb
    · have := ha n hn
      omega

/-- The list with one more structure, in its place. -/
def place (id : Int) (n : Nat × MicInfo) (ns : List (Nat × MicInfo)) : List (Nat × MicInfo) :=
  ns.takeWhile (below id) ++ n :: ns.dropWhile (below id)

theorem mem_place : n ∈ place id a ns ↔ n = a ∨ n ∈ ns := by
  rw [place,mem_append,mem_cons]
  conv_rhs => rw [← takeWhile_append_dropWhile (p := below id) (l := ns),mem_append]
  tauto

theorem length_place : (place id a ns).length = ns.length + 1 := by
  have hl := congrArg length (takeWhile_append_dropWhile (p := below id) (l := ns))
  rw [length_append] at hl
  rw [place,length_append,length_cons]
  omega

theorem Sorted.place (hs : Sorted ns) (ha : a.2.id = id) (hid : ∀ n ∈ ns,n.2.id ≠ id) :
    Sorted (place id a ns) := by
  have hd : ∀ n ∈ ns.dropWhile (below id),id < n.2.id := by
    intro n hn
    have hle := hs.drop_below n hn
    have hne := hid n ((dropWhile_suffix _).subset hn)
    omega
  have hp : Sorted (ns.takeWhile (below id) ++ ns.dropWhile (below id)) := by
    rw [takeWhile_append_dropWhile]
    exact hs
  obtain ⟨ht,hr,hc⟩ := pairwise_append.mp hp
  refine pairwise_append.mpr ⟨ht,pairwise_cons.mpr ⟨?_,hr⟩,?_⟩
  · intro n hn
    rw [ha]
    exact hd n hn
  · intro x hx n hn
    rcases mem_cons.mp hn with rfl | hn
    · rw [ha]
      exact mem_take_below hx
    · exact hc x hx n hn

theorem Sorted.missing (hs : Sorted ns) : missing id ns = true ↔ ∀ n ∈ ns,n.2.id ≠ id := by
  rw [MiclistSorted.missing,decide_eq_true_eq]
  refine ⟨?_,?_⟩
  · intro hne n hn he
    rw [← takeWhile_append_dropWhile (p := below id) (l := ns),mem_append] at hn
    rcases hn with hn | hn
    · have := mem_take_below hn
      omega
    have hsb : Sorted (ns.dropWhile (below id)) := hs.sublist (dropWhile_sublist _)
    have hle : ∀ n ∈ ns.dropWhile (below id),id ≤ n.2.id := hs.drop_below
    cases hd : ns.dropWhile (below id) with
    | nil =>
      rw [hd] at hn
      cases hn
    | cons a rest =>
      rw [hd] at hne hn hsb hle
      have ha := hle a mem_cons_self
      rcases mem_cons.mp hn with rfl | hn
      · exact hne (congrArg some he)
      · have := (pairwise_cons.mp hsb).1 n hn
        omega
  · intro hal he
    cases hd : ns.dropWhile (below id) with
    | nil =>
      rw [hd] at he
      cases he
    | cons a rest =>
      rw [hd] at he
      refine hal a ((dropWhile_suffix (below id)).subset ?_) (some.inj he)
      rw [hd]
      exact mem_cons_self

/-- A sorted list behind a local variable at `d`. -/
structure Listed (h : Heap) (d : Nat) (ns : List (Nat × MicInfo)) : Prop where
  lists : Lists h d ((d,zero) :: ns)
  old : ∀ n ∈ (d,zero) :: ns,n.1 < h.brk
  fits : ns.length < h.brk
  sorted : Sorted ns

/-- The memory after `malloc` and the two assignments that link the new structure in behind `q`. -/
def insertAfter (h : Heap) (q : Nat) (m info : MicInfo) : Heap :=
  (({ h with brk := h.brk + 1,left := h.left - 1 } : Heap).store h.brk
    ⟨info,link h q⟩).store q ⟨m,h.brk⟩

theorem Listed.insert (hl : Listed h d ns) (hi : info.id = id) (hid : ∀ n ∈ ns,n.2.id ≠ id)
    (hq : lastAddr d (ns.takeWhile (below id)) = q) :
    ∃ m,(q,m) ∈ (d,zero) :: ns ∧ (m = zero ∨ m.id < id) ∧
      Listed (insertAfter h q m info) d (place id (h.brk,info) ns) := by
  obtain ⟨pre,m,he,hm⟩ := last_split d zero (ns.takeWhile (below id))
  rw [hq] at he hm
  set rest := ns.dropWhile (below id)
  have hs : (d,zero) :: ns = pre ++ (q,m) :: rest := by
    calc (d,zero) :: ns = (d,zero) :: (ns.takeWhile (below id) ++ rest) := by
          rw [takeWhile_append_dropWhile]
      _ = pre ++ [(q,m)] ++ rest := by rw [← he,cons_append]
      _ = pre ++ (q,m) :: rest := by rw [append_assoc,singleton_append]
  have hc : (d,zero) :: place id (h.brk,info) ns = pre ++ (q,m) :: (h.brk,info) :: rest := by
    rw [place,← cons_append,he,append_assoc,singleton_append]
  have ho := hl.old
  have hls := hl.lists
  rw [hs] at ho hls
  have hp : h.brk ≠ 0 := by
    have := hl.fits
    omega
  have hnw : Lists ((h.store h.brk ⟨info,link h q⟩).store q ⟨m,h.brk⟩) d
      (pre ++ (q,m) :: (h.brk,info) :: rest) :=
    hls.insert hp (fun n hn => ne_of_lt (ho n hn))
  refine ⟨m,?_,?_,?_,?_,?_,hl.sorted.place hi hid⟩
  · rw [hs]
    exact mem_append_right pre mem_cons_self
  · rcases hm with rfl | hm
    · exact .inl rfl
    · exact .inr (mem_take_below hm)
  · rw [hc]
    exact hnw.congr (fun _ _ => rfl)
  · intro n hn
    have hsm : n = (h.brk,info) ∨ n ∈ (d,zero) :: ns := by
      rcases mem_cons.mp hn with rfl | hn
      · exact .inr mem_cons_self
      · rcases mem_place.mp hn with rfl | hn
        · exact .inl rfl
        · exact .inr (.tail _ hn)
    rcases hsm with rfl | hn
    · exact Nat.lt_succ_self _
    · exact Nat.lt_succ_of_lt (hl.old n hn)
  · rw [length_place]
    exact Nat.succ_lt_succ hl.fits

theorem malloc_some (hl : h.left ≠ 0) :
    malloc h = some (h.brk,{ h with brk := h.brk + 1,left := h.left - 1 }) := if_neg hl

end Mpss.Proofs.MiclistSorted
