import Mathlib.Data.List.Pairwise

namespace Mpss.Library.Segments
open List

section
variable (lo hi : α → Int) (P : α → Prop)

/-- Non-empty segments in order, none reaching into a later one. -/
def Apart (l : List α) : Prop := (∀ a ∈ l,lo a < hi a) ∧ l.Pairwise (fun a b => hi a ≤ lo b)

def Contains (a : α) (x : Int) : Prop := lo a ≤ x ∧ x < hi a

/-- Every point of the range lies in a segment of the list that satisfies `P`. -/
def Covers (l : List α) (first last : Int) : Prop :=
  ∀ x,first ≤ x → x < last → ∃ a ∈ l,P a ∧ Contains lo hi a x

/-- The range starts in the head of the list and runs on without a gap. -/
def Spans : List α → Int → Int → Prop
  | [],_,_ => False
  | a :: l,first,last =>
    Contains lo hi a first ∧ P a ∧ (last ≤ hi a ∨ hi a < last ∧ Spans l (hi a) last)

/-- Segments in any order, no two of which overlap. -/
def Separate (l : List α) : Prop := l.Pairwise (fun a b => hi a ≤ lo b ∨ hi b ≤ lo a)

/-- Into a list by the starts: before the first segment that starts later. -/
def place (a : α) : List α → List α
  | [] => [a]
  | b :: l => if lo a < lo b then a :: b :: l else b :: place a l

/-- The length of the part of the range that lies in the segment. -/
def clip (a : α) (first last : Int) : Int := max 0 (min (hi a) last - max (lo a) first)

end

variable {a b : α} {l pre post : List α}

theorem Apart.tail (h : Apart lo hi (a :: l)) :
    Apart lo hi l := ⟨(forall_mem_cons.mp h.1).2,(pairwise_cons.mp h.2).2⟩

theorem Apart.after (h : Apart lo hi (a :: l)) (hb : b ∈ l) :
    hi a ≤ lo b := (pairwise_cons.mp h.2).1 b hb

theorem Apart.right (h : Apart lo hi (pre ++ post)) : Apart lo hi post :=
  ⟨fun b hb => h.1 b (mem_append_right pre hb),(pairwise_append.mp h.2).2.1⟩

theorem Apart.before (h : Apart lo hi (pre ++ a :: post)) (hb : b ∈ pre) : hi b ≤ lo a :=
  (pairwise_append.mp h.2).2.2 b hb a mem_cons_self

theorem place_perm : (place lo a l).Perm (a :: l) := by
  induction l with
  | nil => exact .refl _
  | cons b l ih =>
    unfold place
    split
    · exact .refl _
    · exact (ih.cons b).trans (List.Perm.swap a b l)

theorem mem_place : b ∈ place lo a l ↔ b = a ∨ b ∈ l := (place_perm).mem_iff.trans mem_cons

theorem Spans.covers (h : Spans lo hi P l first last) : Covers lo hi P l first last := by
  induction l generalizing first with
  | nil => exact h.elim
  | cons a l ih =>
    obtain ⟨hc,hp,hr⟩ := h
    intro x hx hl
    by_cases hxa : x < hi a
    · exact ⟨a,mem_cons_self,hp,Int.le_trans hc.1 hx,hxa⟩
    · rcases hr with hr | ⟨_,hr⟩
      · omega
      · obtain ⟨b,hb,hpb⟩ := ih hr x (by omega) hl
        exact ⟨b,.tail a hb,hpb⟩

theorem Covers.mono (h : Covers lo hi P l first last) (hs : l ⊆ m) (hf : first ≤ first')
    (hl : last' ≤ last) : Covers lo hi P m first' last' := by
  intro x hx hxl
  obtain ⟨a,ha,hp⟩ := h x (by omega) (by omega)
  exact ⟨a,hs ha,hp⟩

/-- Where the range starts in the head of an ordered list that covers it, it runs on. -/
theorem Apart.spans (h : Apart lo hi (a :: l)) (ha : Contains lo hi a first) (hp : P a)
    (hc : Covers lo hi P (a :: l) first last) : Spans lo hi P (a :: l) first last := by
  induction l generalizing a first with
  | nil =>
    refine ⟨ha,hp,.inl ?_⟩
    by_contra hlt
    obtain ⟨b,hb,_,hx⟩ := hc (hi a) (by have := ha.2; omega) (by omega)
    rw [mem_singleton.mp hb] at hx
    have := hx.2
    omega
  | cons b l ih =>
    refine ⟨ha,hp,?_⟩
    by_cases hl : last ≤ hi a
    · exact .inl hl
    have hr : Covers lo hi P (b :: l) (hi a) last := by
      intro x hx hxl
      obtain ⟨c,hm,hpc,hcx⟩ := hc x (by have := ha.2; omega) hxl
      rcases mem_cons.mp hm with rfl | hm
      · have := hcx.2
        omega
      · exact ⟨c,hm,hpc,hcx⟩
    obtain ⟨c,hm,hpc,hcx⟩ := hr (hi a) (Int.le_refl _) (by omega)
    have hcb : c = b := by
      rcases mem_cons.mp hm with rfl | hm
      · rfl
      have h1 := h.after mem_cons_self
      have h2 := h.tail.after hm
      have h3 := h.1 b (by simp)
      have h4 := hcx.1
      omega
    subst hcb
    exact .inr ⟨by omega,ih h.tail hcx hpc hr⟩

section
variable (h : Apart lo hi l)
include h

theorem Apart.sublist (hs : l'.Sublist l) :
    Apart lo hi l' := ⟨fun b hb => h.1 b (hs.subset hb),h.2.sublist hs⟩

theorem Apart.map (f : α → α) (hlo : ∀ a,lo (f a) = lo a) (hhi : ∀ a,hi (f a) = hi a) :
    Apart lo hi (l.map f) := by
  refine ⟨?_,?_⟩
  · intro b hb
    obtain ⟨a,ha,rfl⟩ := mem_map.mp hb
    rw [hlo,hhi]
    exact h.1 a ha
  · rw [pairwise_map]
    simpa only [hlo,hhi] using h.2

theorem Apart.unique (ha : a ∈ l) (hb : b ∈ l) (hxa : Contains lo hi a x)
    (hxb : Contains lo hi b x) : a = b := by
  induction l with
  | nil => cases ha
  | cons c l ih =>
    obtain ⟨hla,hha⟩ := hxa
    obtain ⟨hlb,hhb⟩ := hxb
    rcases mem_cons.mp ha with rfl | hma <;> rcases mem_cons.mp hb with rfl | hmb
    · rfl
    · have := h.after hmb
      omega
    · have := h.after hma
      omega
    · exact ih h.tail hma hmb

/-- A segment that overlaps none of the list keeps the list ordered. -/
theorem Apart.place (ha : lo a < hi a) (hd : ∀ b ∈ l,hi b ≤ lo a ∨ hi a ≤ lo b) :
    Apart lo hi (place lo a l) := by
  induction l with
  | nil => exact ⟨by simpa [Segments.place] using ha,by simp [Segments.place]⟩
  | cons b l ih =>
    have hb := h.1 b mem_cons_self
    have hdb := hd b mem_cons_self
    unfold Segments.place
    split
    · rename_i hlt
      refine ⟨?_,pairwise_cons.mpr ⟨?_,h.2⟩⟩
      · exact forall_mem_cons.mpr ⟨ha,h.1⟩
      · intro c hc
        rcases mem_cons.mp hc with rfl | hc
        · omega
        · have := h.after hc
          omega
    · have hr := ih h.tail (forall_mem_cons.mp hd).2
      refine ⟨?_,pairwise_cons.mpr ⟨?_,hr.2⟩⟩
      · exact forall_mem_cons.mpr ⟨hb,hr.1⟩
      · intro c hc
        rcases mem_place.mp hc with rfl | hc
        · omega
        · exact h.after hc

theorem Apart.split (hlt : first < last) (hc : Covers lo hi P l first last) :
    ∃ pre a post,l = pre ++ a :: post ∧ (∀ b ∈ pre,hi b ≤ first) ∧
      Spans lo hi P (a :: post) first last := by
  obtain ⟨a,ha,hp,hx⟩ := hc first (Int.le_refl _) hlt
  obtain ⟨pre,post,rfl⟩ := append_of_mem ha
  have hpr : ∀ b ∈ pre,hi b ≤ first := fun b hb => Int.le_trans (h.before hb) hx.1
  refine ⟨pre,a,post,rfl,hpr,h.right.spans hx hp ?_⟩
  intro x hf hl
  obtain ⟨b,hb,hpb,hbx⟩ := hc x hf hl
  rcases mem_append.mp hb with hb | hb
  · have := hpr b hb
    have := hbx.2
    omega
  · exact ⟨b,hb,hpb,hbx⟩

end

section
variable (h : Separate lo hi l)
include h

theorem Separate.sublist (hs : l'.Sublist l) : Separate lo hi l' := List.Pairwise.sublist hs h

theorem Separate.cons (hd : ∀ b ∈ l,hi a ≤ lo b ∨ hi b ≤ lo a) : Separate lo hi (a :: l) :=
    pairwise_cons.mpr ⟨hd,h⟩

theorem Separate.distinct (ha : a ∈ l) (hb : b ∈ l) (hne : a ≠ b) : hi a ≤ lo b ∨ hi b ≤ lo a := by
  have hs : Std.Symm (fun a b => hi a ≤ lo b ∨ hi b ≤ lo a) := ⟨fun _ _ hab => hab.symm⟩
  exact List.Pairwise.forall h ha hb hne

/-- To take out the first segment that holds a point is to take out all that do. -/
theorem Separate.erase (p : α → Bool)
    (hp : ∀ a ∈ l,p a = true ↔ Contains lo hi a x) : l.eraseP p = l.filter (fun a => !p a) := by
  induction l with
  | nil => rfl
  | cons a l ih =>
    obtain ⟨hd,hs⟩ := pairwise_cons.mp h
    have hl : ∀ b ∈ l,p b = true ↔ Contains lo hi b x := (forall_mem_cons.mp hp).2
    cases hpa : p a with
    | false =>
      rw [eraseP_cons_of_neg (by simp [hpa]),ih hs hl]
      simp [hpa]
    | true =>
      have hax := (hp a mem_cons_self).mp hpa
      have hr : ∀ b ∈ l,(!p b) = true := by
        intro b hb
        rw [Bool.not_eq_true',Bool.eq_false_iff]
        intro hpb
        obtain ⟨h1,h2⟩ := hax
        obtain ⟨h3,h4⟩ := (hl b hb).mp hpb
        have := hd b hb
        omega
      rw [eraseP_cons_of_pos hpa,filter_cons_of_neg (by simp [hpa]),filter_eq_self.mpr hr]

end

theorem clip_nonneg (a : α) (first last : Int) : 0 ≤ clip lo hi a first last := by
  unfold clip
  omega

theorem clip_left (h : hi a ≤ first) : clip lo hi a first last = 0 := by
  unfold clip
  omega

theorem clip_right (h : last ≤ lo a) : clip lo hi a first last = 0 := by
  unfold clip
  omega

theorem clip_start (h : Contains lo hi a first) (hl : first ≤ last) :
    clip lo hi a first last = min (hi a) last - first := by
  obtain ⟨h1,h2⟩ := h
  unfold clip
  omega

/-- Behind the point where a segment starts, an earlier start of the range does not matter. -/
theorem clip_later (h : mid ≤ lo a) (hf : first ≤ mid) :
    clip lo hi a first last = clip lo hi a mid last := by
  unfold clip
  omega

theorem clip_split (hs : lo a ≤ hi a) (h1 : first ≤ mid) (h2 : mid ≤ last) :
    clip lo hi a first mid + clip lo hi a mid last = clip lo hi a first last := by
  unfold clip
  omega

theorem clip_pos (hx : Contains lo hi a x) (h1 : first ≤ x) (h2 : x < last) :
    0 < clip lo hi a first last := by
  obtain ⟨h3,h4⟩ := hx
  unfold clip
  omega

theorem clip_none (h : ∀ x,first ≤ x → x < last → ¬ Contains lo hi a x) :
    clip lo hi a first last = 0 := by
  have hx := h (max (lo a) first)
  unfold Contains at hx
  unfold clip
  omega

end Mpss.Library.Segments
