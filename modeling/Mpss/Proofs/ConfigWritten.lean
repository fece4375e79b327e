import Mpss.Proofs.ConfigLexed

namespace Mpss.Proofs.ConfigWritten
open Mpssconfig.Miclist ConfigLexed List Option Bool

def blank (c : Char) : Bool := c = ' ' || c = '\t'

inductive Arg
  | bare (s : Name)
  | quoted (s : Name)
deriving DecidableEq

def Arg.value : Arg → Name
  | .bare s => s
  | .quoted s => s

def Arg.text : Arg → Name
  | .bare s => s
  | .quoted s => '"' :: s ++ ['"']

def Arg.Valid : Arg → Prop
  | .bare s => s ≠ [] ∧ (∀ c ∈ s,blank c = false) ∧ s.head? ≠ some '"' ∧ s.head? ≠ some '#'
  | .quoted s => '"' ∉ s

def behind : List (Name × Arg) → Name → Name
  | [],e => e
  | (sep,a) :: as,e => sep ++ a.text ++ behind as e

/-- A word in front of which no white space is taken away. -/
def Arg.Starts : Arg → Prop
  | .bare s => ∀ c,s.head? = some c → isSpace c = false
  | .quoted _ => True

/-- A word that ends where it was written to: a bare one with a tab behind it has no space anywhere
behind it. -/
def Arg.Splits : Arg → Name → Prop
  | .bare _,rest => rest.head? = some '\t' → ' ' ∉ rest
  | .quoted _,_ => True

/-- A last word behind which nothing is taken for another one. -/
def Arg.Stops : Arg → Name → Prop
  | .bare _,e => (∀ c ∈ e,c = ' ') ∨ e = ['\t']
  | .quoted _,e => ∀ c ∈ e,c = ' '

def Clean : Arg → List (Name × Arg) → Name → Prop
  | a,[],e => a.Starts ∧ a.Stops e
  | a,(sep,b) :: as,e => a.Starts ∧ a.Splits (sep ++ b.text ++ behind as e) ∧ Clean b as e

def Arguments (as : List (Name × Arg)) : Prop := ∀ a ∈ as,a.1 ≠ [] ∧
    (∀ c ∈ a.1,blank c = true) ∧ a.2.Valid

/-- The end of a line: blanks, and a comment behind a blank. -/
structure Ending (e : Name) : Prop where
  rest : ∃ trail rest,e = trail ++ rest ∧ (∀ c ∈ trail,blank c = true) ∧
    (rest = [] ∨ rest.head? = some '#' ∧ trail ≠ [])

theorem blank_space (h : blank c = true) : isSpace c = true := by
  simp only [blank,or_eq_true,decide_eq_true_eq] at h
  rcases h with rfl | rfl <;> decide

variable {s t w e : Name} {a b : Arg}

theorem pieces_ne_nil : (pieces n t).1 ≠ [] := by
  cases n with
  | zero => simp [pieces]
  | succ n =>
    rw [pieces]
    cases piece t with
    | last lead quote word unclosed => simp
    | cut lead quote word stop after =>
      simp only
      split <;> simp

theorem pieces_lead (hw : ∀ c ∈ w,isSpace c = true) : pieces (n + 1) (w ++ t) = pieces (n + 1) t := by
  have hd : (w ++ t).dropWhile isSpace = t.dropWhile isSpace := by rw [dropWhile_append_of_pos hw]
  unfold pieces piece
  rw [hd]
  cases t.dropWhile isSpace with
  | nil => rfl
  | cons c u =>
    by_cases hh : c = '#'
    · simp [if_pos hh]
    by_cases hq : c = '"'
    · by_cases hu : '"' ∈ u
      · simp [if_neg hh,if_pos hq,if_pos hu,cutAt]
      · simp [if_neg hh,if_pos hq,if_neg hu]
    by_cases hs : ' ' ∈ c :: u
    · simp only [if_neg hh,if_neg hq,if_pos hs,cutAt]
    by_cases ht : '\t' ∈ c :: u
    · simp only [if_neg hh,if_neg hq,if_neg hs,if_pos ht,cutAt]
    · simp only [if_neg hh,if_neg hq,if_neg hs,if_neg ht]

theorem pieces_spaces : pieces (n + 1) (t.dropWhile (· = ' ')) = pieces (n + 1) t := by
  have hw : ∀ c ∈ t.takeWhile (· = ' '),isSpace c = true := by
    intro c hc
    have hsp := mem_takeWhile_imp hc
    rw [of_decide_eq_true hsp]
    decide
  rw [← pieces_lead hw,takeWhile_append_dropWhile]

def andThen (n : Nat) (word rest : Name) : List Name × Bool :=
  if rest.dropWhile (· = ' ') = [] then ([word],false)
  else (word :: (pieces n (rest.dropWhile (· = ' '))).1,(pieces n (rest.dropWhile (· = ' '))).2)

theorem pieces_quoted (hs : '"' ∉ s) : pieces (n + 1) ('"' :: s ++ '"' :: t) = andThen n s t := by
  have hne : ∀ c ∈ s,decide (c ≠ '"') = true := by
    intro c hc
    refine decide_eq_true ?_
    rintro rfl
    exact hs hc
  have hd : ('"' :: s ++ '"' :: t).dropWhile isSpace = '"' :: (s ++ '"' :: t) :=
    dropWhile_cons_of_neg (by decide)
  have ht : (s ++ '"' :: t).takeWhile (· ≠ '"') = s := by
    rw [takeWhile_append_of_pos hne,takeWhile_cons_of_neg (by simp),append_nil]
  have hr : (s ++ '"' :: t).dropWhile (· ≠ '"') = '"' :: t := by
    rw [dropWhile_append_of_pos hne,dropWhile_cons_of_neg (by simp)]
  rw [pieces,piece,hd]
  simp only [if_neg (show ¬ '"' = '#' by decide),if_true,if_pos (show '"' ∈ s ++ '"' :: t by simp),
    cutAt,ht,hr,tail_cons,andThen]

/-- A bare word goes up to the first space, or if there is none to the first tab. -/
theorem piece_bare (hl : ∀ c ∈ lead,isSpace c = true) (ha : (Arg.bare s).Valid)
    (hs : (Arg.bare s).Starts) (t : Name) :
    piece (lead ++ (s ++ t)) =
      if ' ' ∈ t then .cut lead [] (s ++ t.takeWhile (· ≠ ' ')) ' ' (t.dropWhile (· ≠ ' ')).tail
      else if '\t' ∈ t then .cut lead [] (s ++ t.takeWhile (· ≠ '\t')) '\t'
        (t.dropWhile (· ≠ '\t')).tail
      else .last lead [] (s ++ t) false := by
  obtain ⟨hn,hb,hq,hh⟩ := ha
  obtain ⟨c,u,rfl⟩ := exists_cons_of_ne_nil hn
  have hc : ¬ isSpace c = true := by simp [hs c rfl]
  have ht : (lead ++ (c :: u ++ t)).takeWhile isSpace = lead := by
    rw [takeWhile_append_of_pos hl,cons_append,takeWhile_cons_of_neg hc,append_nil]
  have hd : (lead ++ (c :: u ++ t)).dropWhile isSpace = c :: (u ++ t) := by
    rw [dropWhile_append_of_pos hl,cons_append,dropWhile_cons_of_neg hc]
  have hcq : c ≠ '"' := fun he => hq (congrArg some he)
  have hch : c ≠ '#' := fun he => hh (congrArg some he)
  have ho : ∀ x,blank x = true → ∀ y ∈ c :: u,y ≠ x := by
    rintro x hx y hy rfl
    have := hb y hy
    rw [hx] at this
    cases this
  have hmm : ∀ x,blank x = true → (x ∈ c :: (u ++ t) ↔ x ∈ t) := by
    intro x hx
    rw [← cons_append,mem_append]
    exact ⟨fun h => h.resolve_left fun hm => ho x hx x hm rfl,.inr⟩
  have hct : ∀ x,blank x = true → cutAt lead [] x (c :: (u ++ t)) =
      .cut lead [] (c :: u ++ t.takeWhile (· ≠ x)) x (t.dropWhile (· ≠ x)).tail := by
    intro x hx
    have hne : ∀ y ∈ c :: u,decide (y ≠ x) = true := fun y hy => decide_eq_true (ho x hx y hy)
    rw [cutAt,← cons_append,takeWhile_append_of_pos hne,dropWhile_append_of_pos hne]
  rw [piece,ht,hd]
  simp [if_neg hcq,if_neg hch,hmm ' ' rfl,hmm '\t' rfl,hct ' ' rfl,hct '\t' rfl]

theorem pieces_bare (ha : (Arg.bare s).Valid) (hs : (Arg.bare s).Starts) :
    pieces (n + 1) (s ++ t) =
      if ' ' ∈ t then andThen n (s ++ t.takeWhile (· ≠ ' ')) (t.dropWhile (· ≠ ' ')).tail
      else if '\t' ∈ t then andThen n (s ++ t.takeWhile (· ≠ '\t')) (t.dropWhile (· ≠ '\t')).tail
      else ([s ++ t],false) := by
  have hp := piece_bare (forall_mem_nil _) ha hs t
  rw [nil_append] at hp
  rw [pieces,hp]
  by_cases hsp : ' ' ∈ t
  · simp only [if_pos hsp]
    rfl
  by_cases ht : '\t' ∈ t
  · simp only [if_neg hsp,if_pos ht]
    rfl
  · simp [if_neg hsp,if_neg ht]

theorem and_then_head : ∃ ws,(andThen n word rest).1 = word :: ws := by
  unfold andThen
  split
  · exact ⟨[],rfl⟩
  · exact ⟨_,rfl⟩

theorem and_then_last : andThen n word e = ([word],false) ↔ ∀ c ∈ e,c = ' ' := by
  unfold andThen
  refine ⟨fun h => ?_,fun h => ?_⟩
  · by_cases hd : e.dropWhile (· = ' ') = []
    · exact fun c hc => of_decide_eq_true (dropWhile_eq_nil_iff.mp hd c hc)
    · rw [if_neg hd] at h
      have hn := (cons.inj (congrArg Prod.fst h)).2
      exact absurd hn (pieces_ne_nil)
  · rw [if_pos (dropWhile_eq_nil_iff.mpr fun c hc => decide_eq_true (h c hc))]

theorem Arg.Valid.first (hb : b.Valid) : ∃ c u,b.text = c :: u ∧ c ≠ ' ' := by
  cases b with
  | bare s =>
    obtain ⟨hn,hbl,-⟩ := hb
    obtain ⟨c,u,rfl⟩ := exists_cons_of_ne_nil hn
    refine ⟨c,u,rfl,?_⟩
    rintro rfl
    exact absurd (hbl ' ' mem_cons_self) (by decide)
  | quoted s => exact ⟨'"',s ++ ['"'],rfl,by decide⟩

theorem and_then_arg (hb : b.Valid) (hs : ∀ c ∈ sep,blank c = true) :
    andThen (n + 1) word (sep ++ b.text ++ rest) =
      (word :: (pieces (n + 1) (b.text ++ rest)).1,(pieces (n + 1) (b.text ++ rest)).2) := by
  have hd : (sep ++ b.text ++ rest).dropWhile (· = ' ') ≠ [] := by
    intro hd
    obtain ⟨c,u,ht,hc⟩ := hb.first
    refine hc (of_decide_eq_true (dropWhile_eq_nil_iff.mp hd c ?_))
    rw [ht]
    simp
  rw [andThen,if_neg hd,pieces_spaces,append_assoc,pieces_lead fun c hc => blank_space (hs c hc)]

theorem behind_starts (has : Arguments as) (he : Ending e) :
    behind as e = [] ∨ ∃ c rest,behind as e = c :: rest ∧ blank c = true := by
  have hc : ∀ sep rest,sep ≠ [] → (∀ c ∈ sep,blank c = true) → ∃ c u,sep ++ rest = c :: u ∧
    blank c = true := by
    intro sep rest hn hb
    obtain ⟨c,u,rfl⟩ := exists_cons_of_ne_nil hn
    exact ⟨c,u ++ rest,rfl,hb c mem_cons_self⟩
  cases as with
  | nil =>
    obtain ⟨trail,rest,rfl,hb,hr⟩ := he.rest
    by_cases hn : trail = []
    · left
      rw [hn] at hr ⊢
      exact hr.resolve_right fun h => h.2 rfl
    · right
      exact hc trail rest hn hb
  | cons p as =>
    obtain ⟨hn,hb,-⟩ := has p mem_cons_self
    right
    rw [behind,append_assoc]
    exact hc p.1 _ hn hb

theorem bare_cases (ha : (Arg.bare s).Valid) (hs : (Arg.bare s).Starts)
    (ht : t = [] ∨ ∃ c rest,t = c :: rest ∧ blank c = true) :
    (t = [] ∧ pieces (n + 1) (s ++ t) = ([s],false)) ∨
      (∃ c rest,t = c :: rest ∧ (c = ' ' ∨ c = '\t' ∧ ' ' ∉ rest) ∧ pieces (n + 1)
      (s ++ t) = andThen n s rest) ∨
      ¬ (Arg.bare s).Splits t ∧ ∃ w ws,(pieces (n + 1) (s ++ t)).1 = w :: ws ∧ w ≠ s := by
  rw [pieces_bare ha hs]
  rcases ht with rfl | ⟨c,rest,rfl,hc⟩
  · exact .inl ⟨rfl,by simp⟩
  simp only [blank,or_eq_true,decide_eq_true_eq] at hc
  rcases hc with rfl | rfl
  · refine .inr (.inl ⟨' ',rest,rfl,.inl rfl,?_⟩)
    simp
  by_cases hsp : ' ' ∈ '\t' :: rest
  · refine .inr (.inr ⟨fun h => h rfl hsp,?_⟩)
    rw [if_pos hsp]
    obtain ⟨ws,hws⟩ := and_then_head
    refine ⟨_,ws,hws,fun h => ?_⟩
    exact cons_ne_nil _ _ (append_right_eq_self.mp h)
  · refine .inr (.inl ⟨'\t',rest,rfl,.inr ⟨rfl,fun h => hsp (.tail _ h)⟩,?_⟩)
    rw [if_neg hsp,if_pos mem_cons_self]
    simp

def White (w : Name) : Prop := w ≠ [] ∧ ∀ c ∈ w,isSpace c = true

theorem piece_plain (hu : ∀ lead quote word,piece t ≠ .last lead quote word true)
    (hc : (piece t).word.head? = some c) (hsp : isSpace c = true) : '"' ∉ (piece t).word := by
  unfold piece at hu hc ⊢
  cases hd : t.dropWhile isSpace with
  | nil =>
    rw [hd] at hc
    cases hc
  | cons x u =>
    rw [hd] at hu hc
    simp only at hu hc ⊢
    have hx : isSpace x = false := by
      have := head?_dropWhile_not (p := isSpace) t
      rw [hd] at this
      simpa using this
    have hcx : c ≠ x := by
      rintro rfl
      rw [hsp] at hx
      cases hx
    have hhd : ∀ ch,isSpace ch = true → ((x :: u).takeWhile (· ≠ ch)).head? = some c → False := by
      intro ch hch h
      have hne : x ≠ ch := by
        rintro rfl
        rw [hch] at hx
        cases hx
      rw [takeWhile_cons_of_pos (by simpa using hne)] at h
      exact hcx (some.inj h).symm
    split at hc
    · exact absurd (some.inj hc).symm hcx
    rename_i hh
    rw [if_neg hh] at hu ⊢
    split at hc
    · rename_i hq
      rw [if_pos hq] at hu ⊢
      by_cases hm : '"' ∈ u
      · rw [if_pos hm]
        intro hin
        have := mem_takeWhile_imp hin
        simp at this
      · rw [if_neg hm] at hu
        exact absurd rfl (hu _ _ _)
    · split at hc
      · exact (hhd ' ' (by decide) hc).elim
      split at hc
      · exact (hhd '\t' (by decide) hc).elim
      · exact absurd (some.inj hc).symm hcx

theorem words_plain (h : pieces n t = (ws,false)) (hn : ws.length ≤ n) :
    ∀ w ∈ ws,∀ c,w.head? = some c → isSpace c = true → '"' ∉ w := by
  induction n generalizing t ws with
  | zero =>
    intro w hw
    rw [length_eq_zero_iff.mp (Nat.le_zero.mp hn)] at hw
    cases hw
  | succ n ih =>
    have hpl : (∀ lead quote word,piece t ≠ .last lead quote word true) →
        ∀ c,(piece t).word.head? = some c → isSpace c = true → '"' ∉ (piece t).word :=
      fun hu c hc hsp => piece_plain hu hc hsp
    rw [pieces] at h
    cases hp : piece t with
    | last lead quote word unclosed =>
      rw [hp] at h hpl
      obtain ⟨rfl,rfl⟩ := Prod.mk.inj h
      intro w hw c hc hsp
      rw [mem_singleton.mp hw] at hc ⊢
      exact hpl (by simp) c hc hsp
    | cut lead quote word stop after =>
      rw [hp] at h hpl
      by_cases hd : after.dropWhile (· = ' ') = []
      · simp only [if_pos hd] at h
        obtain ⟨rfl,-⟩ := Prod.mk.inj h
        intro w hw c hc hsp
        rw [mem_singleton.mp hw] at hc ⊢
        exact hpl (by simp) c hc hsp
      simp only [if_neg hd] at h
      obtain ⟨rfl,hf⟩ := Prod.mk.inj h
      intro w hw c hc hsp
      rcases mem_cons.mp hw with rfl | hw
      · exact hpl (by simp) c hc hsp
      · exact ih (Prod.ext rfl hf) (Nat.le_of_succ_le_succ hn) w hw c hc hsp

theorem bare_first (ha : (Arg.bare s).Valid) (hs : (Arg.bare s).Starts ∨ '"' ∉ s) :
    White s ∨ ∃ c w ws,(pieces (n + 1) (s ++ t)).1 = (c :: w) :: ws ∧ isSpace c = false := by
  obtain ⟨hn,hb,hq,hh⟩ := ha
  have hsp := takeWhile_append_dropWhile (p := isSpace) (l := s)
  have hf : ∀ c ∈ s.takeWhile isSpace,isSpace c = true := fun c hc => mem_takeWhile_imp hc
  cases hd : s.dropWhile isSpace with
  | nil => exact .inl ⟨hn,dropWhile_eq_nil_iff.mp hd⟩
  | cons c u =>
    have hc : isSpace c = false := by
      have := head?_dropWhile_not (p := isSpace) s
      rw [hd] at this
      simpa using this
    have hm : ∀ x ∈ c :: u,x ∈ s := by
      intro x hx
      rw [← hd] at hx
      exact (dropWhile_suffix isSpace).subset hx
    right
    rw [hd] at hsp
    rw [← hsp,append_assoc,pieces_lead hf]
    by_cases hc' : c = '#'
    · have hdp : (c :: u ++ t).dropWhile isSpace = c :: (u ++ t) :=
        dropWhile_cons_of_neg (by simp [hc])
      refine ⟨c,u ++ t,[],?_,hc⟩
      rw [pieces,piece,hdp]
      simp [if_pos hc']
    have hcq : c ≠ '"' := by
      rintro rfl
      rcases hs with hs | hs
      · have hl : s.takeWhile isSpace = [] := by
          obtain ⟨x,v,hxv⟩ := exists_cons_of_ne_nil hn
          rw [hxv]
          exact takeWhile_cons_of_neg (by simp [hs x (by rw [hxv]; rfl)])
        rw [hl] at hsp
        rw [← hsp] at hq
        exact hq rfl
      · exact hs (hm _ mem_cons_self)
    have hv : (Arg.bare (c :: u)).Valid :=
      ⟨cons_ne_nil _ _,fun x hx => hb x (hm x hx),by simpa using hcq,by simpa using hc'⟩
    have hst : (Arg.bare (c :: u)).Starts := by
      intro x hx
      cases hx
      exact hc
    rw [pieces_bare hv hst]
    split
    · obtain ⟨ws,hws⟩ := and_then_head
      exact ⟨c,_,ws,hws,hc⟩
    split
    · obtain ⟨ws,hws⟩ := and_then_head
      exact ⟨c,_,ws,hws,hc⟩
    · exact ⟨c,u ++ t,[],rfl,hc⟩

theorem ending_first (he : Ending e) (hy : White y) : (pieces (n + 1) e).1 ≠ y :: ys := by
  obtain ⟨trail,rest,rfl,hb,hr⟩ := he.rest
  rw [pieces_lead fun c hc => blank_space (hb c hc)]
  rcases hr with rfl | ⟨hr,-⟩
  · intro h
    exact hy.1 (cons.inj h).1.symm
  obtain ⟨u,rfl⟩ : ∃ u,rest = '#' :: u := by
    cases rest with
    | nil => cases hr
    | cons c u =>
      cases hr
      exact ⟨u,rfl⟩
  intro h
  rw [← (cons.inj h).1] at hy
  exact absurd (hy.2 '#' mem_cons_self) (by decide)

/-- Behind a white bare argument the words lag behind the arguments: each must then be white again,
which only a quoted one can be. -/
theorem words_lag (has : Arguments as) (he : Ending e) (hys : ys ≠ []) (hw : ∀ y ∈ ys,White y)
    (hn : ys.length + as.length ≤ n) :
    pieces n (behind as e) ≠ (ys ++ as.map (fun b => b.2.value),false) := by
  induction as generalizing n ys with
  | nil =>
    intro h
    obtain ⟨y,ys,rfl⟩ := exists_cons_of_ne_nil hys
    obtain ⟨n,rfl⟩ : ∃ k,n = k + 1 := ⟨n - 1,by simp at hn; omega⟩
    exact ending_first he (hw y mem_cons_self) (congrArg Prod.fst h)
  | cons p as ih =>
    obtain ⟨sep,b⟩ := p
    obtain ⟨-,hse,hb⟩ := has (sep,b) mem_cons_self
    have hr : Arguments as := (forall_mem_cons.mp has).2
    obtain ⟨y,ys,rfl⟩ := exists_cons_of_ne_nil hys
    obtain ⟨n,rfl⟩ : ∃ k,n = k + 1 := ⟨n - 1,by simp at hn; omega⟩
    intro h
    rw [behind,append_assoc,pieces_lead fun c hc => blank_space (hse c hc)] at h
    simp only [length_cons] at hn
    have hy := hw y mem_cons_self
    cases b with
    | quoted q =>
      have ht : (Arg.quoted q).text ++ behind as e = '"' :: q ++
        '"' :: behind as e := by simp [Arg.text]
      rw [ht,pieces_quoted hb,andThen] at h
      by_cases hd : (behind as e).dropWhile (· = ' ') = []
      · rw [if_pos hd] at h
        have := congrArg (fun r => r.1.length) h
        simp at this
      rw [if_neg hd] at h
      obtain ⟨n,rfl⟩ : ∃ k,n = k + 1 := ⟨n - 1,by omega⟩
      rw [pieces_spaces] at h
      obtain ⟨hf,hsn⟩ := Prod.mk.inj h
      obtain ⟨hq,htl⟩ := cons.inj hf
      have hl : (ys ++ [q]).length + as.length ≤ n + 1 := by
        rw [length_append,length_singleton]
        omega
      refine ih hr (append_ne_nil_of_right_ne_nil ys (cons_ne_nil q [])) ?_ hl (Prod.ext ?_ hsn)
      · intro z hz
        rcases mem_append.mp hz with hz | hz
        · exact hw z (.tail _ hz)
        · rw [mem_singleton.mp hz,hq]
          exact hy
      · rw [htl,append_assoc]
        rfl
    | bare s =>
      have hl : (y :: ys ++ ((sep,Arg.bare s) :: as).map (fun b => b.2.value)).length ≤ n + 1 := by
        simp only [length_append,length_cons,length_map]
        omega
      have hst : (Arg.bare s).Starts ∨ '"' ∉ s := by
        by_cases hq : '"' ∈ s
        · left
          intro c hc
          by_contra hsp
          refine words_plain h hl s ?_ c hc (of_not_eq_false hsp) hq
          exact mem_append_right _ mem_cons_self
        · exact .inr hq
      rcases bare_first hb hst with hs | ⟨c,w,ws,hf,hc⟩
      · have ht : (Arg.bare s).text ++ behind as e = s ++ behind as e := rfl
        rw [ht,pieces_lead hs.2] at h
        have hl' : (y :: ys ++ [s]).length + as.length ≤ n + 1 := by
          simp only [length_append,length_cons,length_nil]
          omega
        refine ih hr (append_ne_nil_of_right_ne_nil _ (cons_ne_nil s [])) ?_ hl' ?_
        · exact forall_mem_append.mpr ⟨hw,forall_mem_singleton.mpr hs⟩
        · rw [h,append_assoc]
          rfl
      · have hwr := (cons.inj (hf.symm.trans (congrArg Prod.fst h))).1
        rw [← hwr] at hy
        have := hy.2 c mem_cons_self
        rw [hc] at this
        cases this

theorem white_start (ha : (Arg.bare s).Valid) (hs : ¬ (Arg.bare s).Starts) (has : Arguments as)
    (he : Ending e)
    (hn : as.length < n) : pieces n (s ++ behind as e) ≠ (s :: as.map (fun b => b.2.value),false) := by
  intro h
  obtain ⟨n,rfl⟩ : ∃ k,n = k + 1 := ⟨n - 1,by omega⟩
  obtain ⟨c,hc,hsp⟩ : ∃ c,s.head? = some c ∧ isSpace c = true := by
    by_contra hno
    refine hs fun c hc => ?_
    by_contra hsp
    exact hno ⟨c,hc,of_not_eq_false hsp⟩
  have hq : '"' ∉ s := by
    refine words_plain h ?_ s mem_cons_self c hc hsp
    rw [length_cons,length_map]
    exact hn
  rcases bare_first ha (.inr hq) with hw | ⟨x,w,ws,hf,hx⟩
  · rw [pieces_lead hw.2] at h
    refine words_lag has he (cons_ne_nil s []) ?_ ?_ h
    · intro y hy
      rw [mem_singleton.mp hy]
      exact hw
    · rw [length_singleton]
      omega
  · have hwr := (cons.inj (hf.symm.trans (congrArg Prod.fst h))).1
    rw [← hwr] at hc
    cases hc
    rw [hsp] at hx
    cases hx

theorem no_arguments : Arguments [] := fun _ h => absurd h not_mem_nil

section
variable (ha : a.Valid) (hs : a.Starts)
include ha hs

theorem last_word (he : Ending e) : pieces (n + 1) (a.text ++ e) = ([a.value],false) ↔ a.Stops e := by
  cases a with
  | quoted q =>
    have ht : (Arg.quoted q).text ++ e = '"' :: q ++ '"' :: e := by simp [Arg.text]
    rw [ht,pieces_quoted ha,Arg.value,and_then_last]
    rfl
  | bare s =>
    show pieces (n + 1) (s ++ e) = ([s],false) ↔ (∀ c ∈ e,c = ' ') ∨ e = ['\t']
    rcases bare_cases ha hs (behind_starts no_arguments he) with
      ⟨hn,hp⟩ | ⟨c,rest,hcn,hc,hp⟩ | ⟨hst,w,ws,hp,hw⟩
    · rw [behind] at hn hp
      rw [hp,hn]
      simp
    · rw [behind] at hcn hp
      rw [hp,and_then_last,hcn]
      rcases hc with rfl | ⟨rfl,hsp⟩
      · simp
      refine ⟨fun h => Or.inr ?_,?_⟩
      · have hn : rest = [] := by
          refine eq_nil_iff_forall_not_mem.mpr fun c hc => ?_
          rw [h c hc] at hc
          exact hsp hc
        rw [hn]
      · rintro (h | h)
        · exact absurd (h '\t' mem_cons_self) (by decide)
        · rw [(cons.inj h).2]
          simp
    · refine iff_of_false (fun h => hw (cons.inj (hp.symm.trans (congrArg Prod.fst h))).1) ?_
      rintro (h | h)
      · refine hst fun hh => ?_
        exact absurd (h '\t' (mem_of_mem_head? hh)) (by decide)
      · refine hst fun _ => ?_
        rw [h]
        decide

theorem next_word (hse : sep ≠ [] ∧ ∀ c ∈ sep,blank c = true) (hb : b.Valid)
    (hsp : a.Splits (sep ++ b.text ++ t)) : pieces (n + 2) (a.text ++ (sep ++ b.text ++ t)) =
      (a.value :: (pieces (n + 1) (b.text ++ t)).1,(pieces (n + 1) (b.text ++ t)).2) := by
  cases a with
  | quoted q =>
    have ht : (Arg.quoted q).text ++ (sep ++ b.text ++ t) = '"' :: q ++
      '"' :: (sep ++ b.text ++ t) := by
      simp [Arg.text]
    rw [ht,pieces_quoted ha,and_then_arg hb hse.2]
    rfl
  | bare s =>
    obtain ⟨x,sep,rfl⟩ := exists_cons_of_ne_nil hse.1
    have hx : blank x = true := hse.2 x mem_cons_self
    rcases bare_cases ha hs (.inr ⟨x,sep ++ b.text ++ t,rfl,hx⟩) with
      ⟨hn,-⟩ | ⟨c,rest,hcn,-,hp⟩ | ⟨hno,-⟩
    · cases hn
    · cases hcn
      have ht : (Arg.bare s).text ++ (x :: sep ++ b.text ++ t) = s ++ x :: (sep ++ b.text ++ t) := rfl
      rw [ht,hp,and_then_arg hb fun c hc => hse.2 c (.tail _ hc)]
      rfl
    · exact absurd hsp hno

theorem joined_word (has : Arguments as) (he : Ending e)
    (hst : ¬ a.Splits (behind as e)) : ∃ w ws,(pieces (n + 1) (a.text ++ behind as e)).1 = w :: ws ∧
    w ≠ a.value := by
  cases a with
  | quoted q => exact absurd trivial hst
  | bare s =>
    rcases bare_cases ha hs (behind_starts has he) with ⟨hn,-⟩ | ⟨c,rest,hcn,hc,-⟩ | ⟨-,h⟩
    · rw [hn] at hst
      exact absurd (fun h => absurd h (by simp)) hst
    · rw [hcn] at hst
      refine absurd (fun hh => ?_) hst
      rcases hc with rfl | ⟨rfl,hsp⟩
      · exact absurd hh (by simp)
      · simpa using hsp
    · exact h

end

/-- A line is read as written exactly when it is clean. -/
theorem lexed_iff (ha : a.Valid) (has : Arguments as) (he : Ending e) (hn : as.length < n) :
    pieces n (a.text ++ behind as e) = (a.value :: as.map (fun b => b.2.value),false) ↔
    Clean a as e := by
  induction as generalizing a n with
  | nil =>
    obtain ⟨n,rfl⟩ : ∃ k,n = k + 1 := ⟨n - 1,by omega⟩
    by_cases hs : a.Starts
    · rw [behind,Clean,and_iff_right hs]
      exact last_word ha hs he
    · refine iff_of_false ?_ fun h => hs h.1
      cases a with
      | quoted q => exact absurd trivial hs
      | bare s => exact white_start ha hs has he hn
  | cons p as ih =>
    obtain ⟨sep,b⟩ := p
    obtain ⟨hnl,hbl,hb⟩ := has (sep,b) mem_cons_self
    obtain ⟨n,rfl⟩ : ∃ k,n = k + 2 := ⟨n - 2,by simp at hn; omega⟩
    have hr : as.length < n + 1 := Nat.lt_of_succ_lt_succ hn
    by_cases hs : a.Starts
    · rw [Clean,and_iff_right hs]
      by_cases hsp : a.Splits (sep ++ b.text ++ behind as e)
      · rw [and_iff_right hsp,behind,next_word ha hs ⟨hnl,hbl⟩ hb hsp,
          ← ih hb (forall_mem_cons.mp has).2 hr,Prod.ext_iff,Prod.ext_iff]
        simp
      · obtain ⟨w,ws,hp,hw⟩ := joined_word ha hs has he hsp
        refine iff_of_false (fun h => ?_) fun h => hsp h.1
        exact hw (cons.inj (hp.symm.trans (congrArg Prod.fst h))).1
    · refine iff_of_false ?_ fun h => hs h.1
      cases a with
      | quoted q => exact absurd trivial hs
      | bare s => exact white_start ha hs has he hn

end Mpss.Proofs.ConfigWritten
