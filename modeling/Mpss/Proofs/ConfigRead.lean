import Mpss.Proofs.ConfigWritten

namespace Mpss.Proofs.ConfigRead
open Mpssconfig.Miclist Mpssconfig.Parse ConfigLexed ConfigWritten List Option

def endsLine (ch : Char) : Bool := ch = '\n' || ch = nul

def lineTexts (file : Name) : List Name := file.splitOnP endsLine

/-- What the lines `texts` led to: `done` for those that were read. A line at the very end with at
most one character is not. -/
structure ReadAs (c : Context) (lines : List (List Event)) (texts : List Name)
    (done : List (List Event)) (ret : Int) : Prop where
  events : ∀ (i : Nat) events text,done[i]? = some events → texts[i]? = some text →
    events = textEvents c (lines.length + i + 1) text ∧ (text.length ≤ 1 → i + 1 ≠ texts.length)
  unread : ret = 0 → ∀ (i : Nat) text,texts[i]? = some text → done.length ≤ i →
    text.length ≤ 1 ∧ (text = [] ∨ i + 1 = texts.length)

variable {c : Context} {m : Image} {p size n : Nat} {rest : Name} {lines : List (List Event)}

theorem ReadAs.short (hr : rest.length ≤ 1) : ReadAs c lines (lineTexts rest) [] 0 where
  events := by simp
  unread := by
    intro _ i text hi _
    have hm := mem_of_getElem? hi
    cases rest with
    | nil =>
      have htx : text = [] := mem_singleton.mp hm
      rw [htx]
      exact ⟨Nat.zero_le _,.inl rfl⟩
    | cons ch rest =>
      have hn : rest = [] := length_eq_zero_iff.mp (by simpa using hr)
      subst hn
      by_cases he : endsLine ch = true
      · have ht : lineTexts [ch] = [[],[]] :=
          splitOnP_append_cons_of_forall_mem (forall_mem_nil _) ch he []
        rw [ht] at hm
        have htx : text = [] := by simpa using hm
        rw [htx]
        exact ⟨Nat.zero_le _,.inl rfl⟩
      have ht : lineTexts [ch] = [[ch]] := splitOnP_eq_singleton (by simpa using he)
      rw [ht] at hi hm ⊢
      obtain ⟨hlt,-⟩ := List.getElem?_eq_some_iff.mp hi
      rw [mem_singleton.mp hm]
      exact ⟨le_rfl,.inr (by simpa using hlt)⟩

theorem ReadAs.cons (hl : text.length ≤ 1 → texts ≠ [])
    (hr : ReadAs c (lines ++ [textEvents c (lines.length + 1) text]) texts done ret) :
    ReadAs c lines (text :: texts) (textEvents c (lines.length + 1) text :: done) ret where
  events := by
    intro i events text' hd ht
    cases i with
    | zero =>
      cases hd
      cases ht
      refine ⟨rfl,fun hln he => hl hln ?_⟩
      exact length_eq_zero_iff.mp (Nat.succ.inj he).symm
    | succ i =>
      obtain ⟨he,hen⟩ := hr.events i events text' hd ht
      rw [length_append,length_singleton,add_assoc lines.length,add_comm 1] at he
      exact ⟨he,fun hln h => hen hln (Nat.succ.inj h)⟩
  unread := by
    intro hrt i text' ht hi
    cases i with
    | zero => cases hi
    | succ i =>
      obtain ⟨hln,hen⟩ := hr.unread hrt i text' ht (Nat.le_of_succ_le_succ hi)
      exact ⟨hln,hen.imp_right (congrArg Nat.succ)⟩

theorem ReadAs.failed (hl : text.length ≤ 1 → texts ≠ []) (hr : ret ≠ 0) :
    ReadAs c lines (text :: texts) [textEvents c (lines.length + 1) text] ret :=
  .cons hl ⟨by simp,fun h => absurd h hr⟩

theorem parse_lines_end (hp : size ≤ p + 1) :
    parseLines c size (n + 1) m p lines = some (lines,0) := by
  rw [parseLines,if_neg (not_lt.mpr hp)]

theorem line_end (hm : m.drop p = rest ++ [nul]) :
    ∃ t x tail,m.drop p = t ++ x :: tail ∧ (∀ ch ∈ t,endsLine ch = false) ∧
      skip (fun ch => ch ≠ '\n' ∧ ch ≠ nul) m p = p + t.length ∧
      (rest = t ∧ tail = [] ∨ ∃ u,rest = t ++ x :: u ∧ endsLine x = true ∧ tail = u ++ [nul]) := by
  have hf : (fun ch => decide (ch ≠ '\n' ∧ ch ≠ nul)) = fun ch => ! endsLine ch := by
    funext ch
    simp [endsLine]
  have hs := takeWhile_append_dropWhile (p := fun ch => ! endsLine ch) (l := rest)
  have hl : ∀ ch ∈ rest.takeWhile (fun ch => ! endsLine ch),(! endsLine ch) = true :=
    fun ch hch => mem_takeWhile_imp (p := fun ch => ! endsLine ch) hch
  generalize rest.takeWhile (fun ch => ! endsLine ch) = t at hs hl
  have hp : ∀ ch ∈ t,endsLine ch = false := fun ch hch => by simpa using hl ch hch
  have hsk : ∀ x tail,m.drop p = t ++ x :: tail → endsLine x = true →
      skip (fun ch => ch ≠ '\n' ∧ ch ≠ nul) m p = p + t.length := by
    intro x tail hdp hx
    rw [skip,hf,hdp,takeWhile_append_of_pos hl,takeWhile_cons_of_neg (by simp [hx]),append_nil]
  cases hd : rest.dropWhile (fun ch => ! endsLine ch) with
  | nil =>
    rw [hd,append_nil] at hs
    have hdp : m.drop p = t ++ nul :: [] := by rw [hm,hs]
    exact ⟨t,nul,[],hdp,hp,hsk nul [] hdp (by decide),.inl ⟨hs.symm,rfl⟩⟩
  | cons x u =>
    have hx : endsLine x = true := by
      have := head?_dropWhile_not (p := fun ch => ! endsLine ch) rest
      rw [hd] at this
      simpa using this
    rw [hd] at hs
    have hdp : m.drop p = t ++ x :: (u ++ [nul]) := by rw [hm,← hs,append_assoc,cons_append]
    exact ⟨t,x,u ++ [nul],hdp,hp,hsk x _ hdp hx,.inr ⟨u,hs.symm,hx,rfl⟩⟩

theorem parse_lines (lines : List (List Event)) (hm : m.drop p = rest ++ [nul])
    (hp : p + rest.length = size) (hn : rest.length < n) :
    ∃ done ret,parseLines c size n m p lines = some (lines ++ done,ret) ∧ ReadAs c lines
    (lineTexts rest) done ret := by
  induction n generalizing m p rest lines with
  | zero => cases hn
  | succ n ih =>
    by_cases hlo : p + 1 < size
    · obtain ⟨t,x,tail,hd,hln,hs,hr⟩ := line_end hm
      have hpl : nul ∉ t := fun h => absurd (hln nul h) (by decide)
      obtain ⟨m',hpr,hc⟩ := parse_line c (lines.length + 1) (text_set hd hpl)
      have htl : m'.drop (p + t.length + 1) = tail := by
        rw [hc.drop (Nat.le_succ _),(text_set hd hpl).rest]
      rw [parseLines,if_pos hlo,hs]
      simp only [hpr]
      set k := lines.length + 1
      rcases hr with ⟨rfl,rfl⟩ | ⟨u,rfl,hx,rfl⟩
      · have ht : lineTexts rest = [rest] := splitOnP_eq_singleton hln
        have hl : rest.length ≤ 1 → ([] : List Name) ≠ [] := fun h => absurd h (by omega)
        rw [ht]
        by_cases hrt : returned c lines (textEvents c k rest) = 0
        · obtain ⟨n,rfl⟩ : ∃ k,n = k + 1 := ⟨n - 1,by omega⟩
          rw [if_neg (not_not.mpr hrt),parse_lines_end (by omega)]
          refine ⟨[textEvents c k rest],0,rfl,ReadAs.cons hl ⟨by simp,by simp⟩⟩
        · rw [if_pos hrt]
          exact ⟨_,_,rfl,ReadAs.failed hl hrt⟩
      · have ht : lineTexts (t ++ x :: u) = t :: lineTexts u :=
          splitOnP_append_cons_of_forall_mem hln x hx u
        have hl : t.length ≤ 1 → lineTexts u ≠ [] := fun _ => splitOnP_ne_nil endsLine u
        rw [ht]
        rw [length_append,length_cons] at hp hn
        by_cases hrt : returned c lines (textEvents c k t) = 0
        · rw [if_neg (not_not.mpr hrt)]
          obtain ⟨done,ret,hrn,hrd⟩ := ih (lines ++ [textEvents c k t]) htl (by omega) (by omega)
          refine ⟨textEvents c k t :: done,ret,?_,ReadAs.cons hl hrd⟩
          rw [hrn,append_assoc,singleton_append]
        · rw [if_pos hrt]
          exact ⟨_,_,rfl,ReadAs.failed hl hrt⟩
    · refine ⟨[],0,?_,.short (by omega)⟩
      rw [parse_lines_end (not_lt.mp hlo),append_nil]

structure Line where
  lead : Name
  keyword : Name
  args : List (Name × Arg)
  trail : Name
  comment : Option Name
  lead_blank : ∀ ch ∈ lead,blank ch = true
  args_valid : Arguments args
  few : args.length ≤ 8
  trail_blank : ∀ ch ∈ trail,blank ch = true
  apart : comment ≠ none → trail ≠ []

variable (l : Line)

def Line.ending : Name :=
  l.trail ++
    match l.comment with
    | none => []
    | some s => '#' :: s

def Line.text : Name := l.lead ++ l.keyword ++ behind l.args l.ending

def Line.values : List Name := l.args.map (fun b => b.2.value)

/-- A line that is read as it is written: the keyword first, no comment, and blanks that the lexer
can tell from the arguments. -/
def Line.AsWritten : Prop := l.lead = [] ∧ Clean (.bare l.keyword) l.args l.ending

theorem Line.ends (l : Line) : Ending l.ending where
  rest := by
    cases hc : l.comment with
    | none => exact ⟨l.trail,[],by rw [ending,hc],l.trail_blank,.inl rfl⟩
    | some s =>
      refine ⟨l.trail,'#' :: s,by rw [ending,hc],l.trail_blank,.inr ⟨rfl,l.apart ?_⟩⟩
      rw [hc]
      exact some_ne_none s

def special (ch : Char) : Bool := isSpace ch || ch = '"' || ch = '#'

theorem special_lower (h : special ch = true) : ch.toLower = ch := by
  have hs : ch.toNat < 65 := by
    simp only [special,isSpace,Char.isWhitespace,Bool.or_eq_true,decide_eq_true_eq] at h
    rcases h with ((((((h | h) | h) | h) | h) | h) | h) | h
    all_goals
      rw [h]
      decide
  refine dif_neg fun hu => ?_
  have := UInt32.le_iff_toNat_le.mp hu.1
  exact absurd hs (not_lt.mpr this)

theorem forall_chars {s : Name} {p : Char → Bool} (h : s.all p = true) : ∀ ch ∈ s,p ch = true :=
    all_eq_true.mp h

theorem tokens_plain : ∀ t ∈ tokens,2 ≤ t.name.length ∧
    ∀ ch ∈ t.name.map Char.toLower,special ch = false := by
  have ha : ∀ t ∈ tokens,2 ≤ t.name.length ∧ (t.name.map Char.toLower).all
    (fun ch => !special ch) = true := by
    decide
  intro t ht
  obtain ⟨hl,hp⟩ := ha t ht
  refine ⟨hl,?_⟩
  intro ch hch
  simpa using forall_chars hp ch hch

theorem tokens_distinct :
    ∀ t ∈ tokens,∀ u ∈ tokens,strcasecmp t.name u.name = true → t = u := by decide

section
variable (ht : t ∈ tokens) (hk : strcasecmp keyword t.name = true)
include ht hk

theorem keyword_plain : 2 ≤ keyword.length ∧ ∀ ch ∈ keyword,special ch = false := by
  have hm : keyword.map Char.toLower = t.name.map Char.toLower := of_decide_eq_true hk
  obtain ⟨hln,hp⟩ := tokens_plain t ht
  refine ⟨?_,fun ch hch => ?_⟩
  · have := congrArg length hm
    rw [length_map,length_map] at this
    rwa [this]
  by_contra hs
  have hl := special_lower (Bool.of_not_eq_false hs)
  have hmm : ch ∈ t.name.map Char.toLower := by
    rw [← hm,← hl]
    exact mem_map_of_mem hch
  exact hs (hp ch hmm)

theorem keyword_valid : (Arg.bare keyword).Valid ∧ (Arg.bare keyword).Starts := by
  obtain ⟨hl,hp⟩ := keyword_plain ht hk
  have hs : ∀ ch ∈ keyword,isSpace ch = false ∧ ch ≠ '"' ∧ ch ≠ '#' := by
    intro ch hch
    simpa [special,and_assoc] using hp ch hch
  refine ⟨⟨?_,?_,?_,?_⟩,fun ch hch => (hs ch (mem_of_mem_head? hch)).1⟩
  · rintro rfl
    cases hl
  · intro ch hch
    by_contra hb
    have := blank_space (Bool.of_not_eq_false hb)
    rw [(hs ch hch).1] at this
    cases this
  · exact fun h => (hs '"' (mem_of_mem_head? h)).2.1 rfl
  · exact fun h => (hs '#' (mem_of_mem_head? h)).2.2 rfl

theorem dispatch_keyword :
    dispatch c lineno keyword args =
      if args.length < t.minargs ∨ args.length > t.maxargs then invalidCount c lineno args.length
      else .call t.name args lineno := by
  have hm : keyword.map Char.toLower = t.name.map Char.toLower := of_decide_eq_true hk
  have hfn : tokens.find? (fun t => keyword.length = t.name.length ∧
    strcasecmp keyword t.name) = some t := by
    cases hf : tokens.find? (fun t => keyword.length = t.name.length ∧ strcasecmp keyword t.name) with
    | none =>
      have := find?_eq_none.mp hf t ht
      have hl := congrArg length hm
      rw [length_map,length_map] at hl
      exact absurd (decide_eq_true ⟨hl,hk⟩) this
    | some u =>
      have hu : keyword.length = u.name.length ∧ strcasecmp keyword u.name =
        true := by simpa using find?_some hf
      have hm' : keyword.map Char.toLower = u.name.map Char.toLower := of_decide_eq_true hu.2
      have hs : strcasecmp u.name t.name = true := decide_eq_true (hm'.symm.trans hm)
      rw [tokens_distinct u (mem_of_find?_eq_some hf) t ht hs]
  rw [dispatch,hfn]

end

theorem dispatch_call (h : dispatch c lineno config args = .call name args' lineno') :
    args = args' ∧ ∃ t ∈ tokens,strcasecmp config t.name = true := by
  unfold dispatch at h
  split at h
  · cases h
  rename_i t hf
  have hu : config.length = t.name.length ∧ strcasecmp config t.name =
    true := by simpa using find?_some hf
  split at h
  · cases h
  · cases h
    exact ⟨rfl,t,mem_of_find?_eq_some hf,hu.2⟩

/-- The text in front of a line: the keyword with the blanks before it and what the first word takes
in behind it. -/
theorem front_line (n : Nat) (rest : Name) (hl : ∀ ch ∈ lead,blank ch = true)
    (hv : (Arg.bare keyword).Valid ∧ (Arg.bare keyword).Starts) :
    ∃ x ws,front (lead ++ (keyword ++ rest)) = lead ++ (keyword ++ x) ∧
      (x = [] ∨ x.head? = rest.head?) ∧
      (pieces (n + 1) (lead ++ (keyword ++ rest))).1 = (keyword ++ x) :: ws := by
  have hs : ∀ ch ∈ lead,isSpace ch = true := fun ch hch => blank_space (hl ch hch)
  have ht : ∀ ch,rest.takeWhile (· ≠ ch) = [] ∨ (rest.takeWhile (· ≠ ch)).head? = rest.head? := by
    intro ch
    cases rest with
    | nil => exact .inl rfl
    | cons y rest =>
      by_cases hy : y = ch
      · exact .inl (takeWhile_cons_of_neg (by simpa using hy))
      · rw [takeWhile_cons_of_pos (by simpa using hy)]
        exact .inr rfl
  rw [pieces_lead hs,pieces_bare hv.1 hv.2,front,piece_bare hs hv.1 hv.2]
  by_cases hsp : ' ' ∈ rest
  · rw [if_pos hsp,if_pos hsp]
    obtain ⟨ws,hws⟩ := and_then_head
    exact ⟨_,ws,by simp [Piece.front],ht ' ',hws⟩
  by_cases htb : '\t' ∈ rest
  · rw [if_neg hsp,if_neg hsp,if_pos htb,if_pos htb]
    obtain ⟨ws,hws⟩ := and_then_head
    exact ⟨_,ws,by simp [Piece.front],ht '\t',hws⟩
  · rw [if_neg hsp,if_neg hsp,if_neg htb,if_neg htb]
    exact ⟨rest,[],by simp [Piece.front],.inr rfl,rfl⟩

theorem Line.not_commented {l : Line} (ht : t ∈ tokens) (hk : strcasecmp l.keyword t.name = true) :
    commented l.text = false := by
  obtain ⟨⟨hn,-,-,hh⟩,hs⟩ := keyword_valid ht hk
  obtain ⟨ch,u,hky⟩ := exists_cons_of_ne_nil hn
  have hch : isSpace ch = false := hs ch (by rw [hky]; rfl)
  rw [hky] at hh
  rw [commented,text,append_assoc,dropWhile_append_of_pos fun x hx => blank_space (l.lead_blank x hx),
    hky,cons_append,dropWhile_cons_of_neg (by simp [hch])]
  exact decide_eq_false hh

theorem Line.events (l : Line) (c : Context) (lineno : Nat) (ht : t ∈ tokens)
    (hk : strcasecmp l.keyword t.name = true) :
    textEvents c lineno l.text =
      (if (pieces 9 l.text).2 then [missingQuote c lineno] else []) ++
        [dispatch c lineno (front l.text) (pieces 9 l.text).1.tail] := by
  obtain ⟨x,ws,hf,-,-⟩ := front_line 8 (behind l.args l.ending) l.lead_blank (keyword_valid ht hk)
  have htx : l.text = l.lead ++ (l.keyword ++ behind l.args l.ending) := append_assoc _ _ _
  have hl : ¬ (front l.text).length = 0 := by
    rw [htx,hf,length_append,length_append]
    have := (keyword_plain ht hk).1
    omega
  rw [textEvents,if_neg (by simp [l.not_commented ht hk])]
  exact if_neg fun h => hl h.2

theorem Line.words (l : Line) (ht : t ∈ tokens) (hk : strcasecmp l.keyword t.name = true)
    (h : l.AsWritten) :
    front l.text = l.keyword ∧ pieces 9 l.text = (l.keyword :: l.values,false) := by
  have hv := keyword_valid ht hk
  obtain ⟨hl,hc⟩ := h
  have htx : l.text = [] ++ (l.keyword ++ behind l.args l.ending) := by rw [text,hl,append_assoc]
  have hp : pieces 9 (l.keyword ++ behind l.args l.ending) = (l.keyword :: l.values,false) :=
    (lexed_iff hv.1 l.args_valid l.ends (Nat.lt_succ_of_le l.few)).mpr hc
  obtain ⟨x,ws,hf,-,hw⟩ := front_line 8 (behind l.args l.ending) (forall_mem_nil _) hv
  rw [nil_append,hp] at hw
  have hx : x = [] := append_right_eq_self.mp (cons.inj hw).1.symm
  rw [htx,hf,hx,nil_append,append_nil,nil_append]
  exact ⟨rfl,hp⟩

theorem Line.as_written {l : Line} (ht : t ∈ tokens) (hk : strcasecmp l.keyword t.name = true)
    (hu : ∃ u ∈ tokens,strcasecmp (front l.text) u.name = true)
    (ha : (pieces 9 l.text).1.tail = l.values)
    (hc : (pieces 9 l.text).2 = false) : l.AsWritten := by
  have hv := keyword_valid ht hk
  have htx : l.text = l.lead ++ (l.keyword ++ behind l.args l.ending) := append_assoc _ _ _
  have hs : ∀ ch ∈ l.lead,isSpace ch = true := fun ch hch => blank_space (l.lead_blank ch hch)
  obtain ⟨x,ws,hf,hx,hw⟩ := front_line 8 (behind l.args l.ending) l.lead_blank hv
  rw [htx,hf] at hu
  rw [htx] at ha hc
  obtain ⟨u,hu,hku⟩ := hu
  have hp : ∀ ch ∈ l.lead ++ (l.keyword ++ x),isSpace ch = false := by
    intro ch hch
    have := (keyword_plain hu hku).2 ch hch
    simp only [special,Bool.or_eq_false_iff] at this
    exact this.1.1
  have hno : ∀ ch ∈ l.lead ++ (l.keyword ++ x),¬ isSpace ch = true := fun ch hch => by simp [hp ch hch]
  have hl : l.lead = [] := eq_nil_iff_forall_not_mem.mpr fun ch hch => hno ch
    (mem_append_left _ hch) (hs ch hch)
  have hxn : x = [] := by
    rcases hx with hx | hx
    · exact hx
    rcases behind_starts l.args_valid l.ends with hn | ⟨ch,rest,hcn,hch⟩
    · rw [hn] at hx
      exact head?_eq_none_iff.mp hx
    · rw [hcn] at hx
      have hm := mem_append_right l.lead (mem_append_right l.keyword (mem_of_mem_head? hx))
      exact absurd (blank_space hch) (hno ch hm)
  refine ⟨hl,(lexed_iff (n := 9) hv.1 l.args_valid l.ends (Nat.lt_succ_of_le l.few)).mp ?_⟩
  rw [hw] at ha
  rw [pieces_lead hs] at hw hc
  refine Prod.ext ?_ hc
  show (pieces 9 (l.keyword ++ behind l.args l.ending)).1 = l.keyword :: l.values
  rw [hw,hxn,append_nil,← ha]
  rfl

theorem Line.as_written_events {l : Line} (ht : t ∈ tokens)
    (hk : strcasecmp l.keyword t.name = true) (h : l.AsWritten) :
    textEvents c lineno l.text =
      [if l.args.length < t.minargs ∨ l.args.length > t.maxargs then invalidCount c
      lineno l.args.length
        else .call t.name l.values lineno] := by
  obtain ⟨hf,hp⟩ := l.words ht hk h
  have hl : l.values.length = l.args.length := length_map _
  rw [l.events c lineno ht hk,hf,hp]
  show [dispatch c lineno l.keyword l.values] = _
  rw [dispatch_keyword ht hk,hl]

theorem Line.called_iff {l : Line} (ht : t ∈ tokens)
    (hk : strcasecmp l.keyword t.name = true) (hl : t.minargs ≤ l.args.length ∧
    l.args.length ≤ t.maxargs) :
    textEvents c lineno l.text = [.call t.name l.values lineno] ↔ l.AsWritten := by
  refine ⟨fun h => ?_,fun h => ?_⟩
  · rw [l.events c lineno ht hk] at h
    cases hc : (pieces 9 l.text).2 with
    | true =>
      rw [hc] at h
      exact absurd (congrArg length h) (by simp)
    | false =>
      rw [hc] at h
      obtain ⟨ha,hu⟩ := dispatch_call (cons.inj h).1
      exact l.as_written ht hk hu ha hc
  · rw [l.as_written_events ht hk h,if_neg (by omega)]

theorem blank_events (hb : ∀ ch ∈ text,blank ch = true) :
    textEvents c lineno text = [] ↔ text = [] := by
  have hd : text.dropWhile isSpace = [] := dropWhile_eq_nil_iff.mpr fun ch hch =>
    blank_space (hb ch hch)
  have ht : text.takeWhile isSpace = text := by
    have := takeWhile_append_dropWhile (p := isSpace) (l := text)
    rwa [hd,append_nil] at this
  have hp : piece text = .last text [] [] false := by rw [piece,hd,ht]
  have hc : ¬ commented text = true := by simp [commented,hd]
  have hw : pieces (maxArgs - 1) text = ([[]],false) := by
    show pieces (8 + 1) text = _
    rw [pieces,hp]
  have hf : front text = text := by rw [front,hp,Piece.front,append_nil,append_nil]
  rw [textEvents,if_neg hc]
  simp only [hw,hf]
  cases text with
  | nil | cons ch text => simp

theorem comment_events (hb : ∀ ch ∈ lead,blank ch = true) :
    textEvents c lineno (lead ++ '#' :: s) = [] := by
  have hc : commented (lead ++ '#' :: s) = true := by
    rw [commented,dropWhile_append_of_pos fun ch hch => blank_space (hb ch hch),
      dropWhile_cons_of_neg (by decide)]
    rfl
  rw [textEvents,if_pos hc]

/-- What the parser does with the line `text`, the `i`th of `total`, whose events are `events`. -/
structure Reads (c : Context) (i total : Nat) (text : Name) (events : List Event) : Prop where
  called : ∀ (l : Line) (t : Token),l.text = text → t ∈ tokens → strcasecmp l.keyword t.name =
    true → t.minargs ≤ l.args.length ∧ l.args.length ≤ t.maxargs →
    (events = [.call t.name l.values (i + 1)] ↔ l.AsWritten)
  counted : ∀ (l : Line) (t : Token),l.text = text → t ∈ tokens → strcasecmp l.keyword t.name =
    true → ¬ (t.minargs ≤ l.args.length ∧ l.args.length ≤ t.maxargs) → l.AsWritten →
    events = [invalidCount c (i + 1) l.args.length]
  blanks : (∀ ch ∈ text,blank ch = true) → (events = [] ↔ text = [] ∨ text.length = 1 ∧ i + 1 = total)
  comment : ∀ lead s,text = lead ++ '#' :: s → (∀ ch ∈ lead,blank ch = true) → events = []

theorem reads_line (hl : text.length ≤ 1 → i + 1 ≠ total) :
    Reads c i total text (textEvents c (i + 1) text) where
  called := by
    rintro l t rfl ht hk hlm
    exact l.called_iff ht hk hlm
  counted := by
    rintro l t rfl ht hk hlm h
    rw [l.as_written_events ht hk h,if_pos (by omega)]
  blanks := by
    intro hb
    rw [blank_events hb]
    exact ⟨.inl,fun h => h.resolve_right fun h' => hl (le_of_eq h'.1) h'.2⟩
  comment := by
    rintro lead s rfl hb
    exact comment_events hb

theorem reads_nothing (hln : text.length ≤ 1) (hls : text = [] ∨ i + 1 = total) :
    Reads c i total text [] := by
  have hky : ∀ (l : Line) (t : Token),l.text = text → t ∈ tokens →
    ¬ strcasecmp l.keyword t.name = true := by
    rintro l t rfl ht hk
    have := (keyword_plain ht hk).1
    rw [Line.text,length_append,length_append] at hln
    omega
  refine ⟨fun l t hl ht hk => absurd hk (hky l t hl ht),fun l t hl ht hk => absurd hk
    (hky l t hl ht),?_,?_⟩
  · intro _
    refine ⟨fun _ => ?_,fun _ => rfl⟩
    cases text with
    | nil => exact .inl rfl
    | cons ch text =>
      refine .inr ⟨le_antisymm hln (Nat.succ_pos _),hls.resolve_left (cons_ne_nil _ _)⟩
  · exact fun _ _ _ _ => rfl

/-- A line with a keyword is read exactly when it can be read as written; one without is passed over
unless it is made of blanks. -/
theorem config_lines_as_written (c : Context) (file : Name) :
    ∃ o,parseConfigFile c (.bytes file) = some o ∧
      ∀ (i : Nat) text,(lineTexts file)[i]? = some text → o.ret = 0 ∨ i < o.lines.length →
        Reads c i (lineTexts file).length text (o.lines.getD i []) := by
  obtain ⟨done,ret,hrn,hrd⟩ := parse_lines (c := c) (m := file ++ [nul]) (p := 0)
    (n := file.length + 1) [] rfl (zero_add _) (Nat.lt_succ_self _)
  refine ⟨_,by rw [parseConfigFile,hrn]; rfl,?_⟩
  intro i text ht hr
  show Reads c i (lineTexts file).length text (done.getD i [])
  rcases lt_or_ge i done.length with hi | hi
  · have hd : done[i]? = some done[i] := getElem?_eq_getElem hi
    obtain ⟨he,hl⟩ := hrd.events i _ text hd ht
    rw [getD_eq_getElem?_getD,hd,getD_some,he,length_nil,zero_add]
    exact reads_line hl
  · have hrt : ret = 0 := hr.resolve_right (not_lt.mpr hi)
    obtain ⟨hln,hl⟩ := hrd.unread hrt i text ht hi
    rw [getD_eq_getElem?_getD,getElem?_eq_none_iff.mpr hi]
    exact reads_nothing hln hl

def quiet : Context := ⟨"mic0.conf".toList,"mic0".toList,fun _ _ _ => 0⟩

def hostLine : Line where
  lead := []
  keyword := "Hostname".toList
  args := [([' '],.bare "node0".toList)]
  trail := [' ']
  comment := some " name".toList
  lead_blank := forall_chars rfl
  args_valid := by
    intro a ha
    rw [mem_singleton.mp ha]
    have hword : ∀ ch ∈ "node0".toList,(!blank ch) = true := forall_chars rfl
    exact ⟨by decide,forall_chars rfl,by decide,by simpa using hword,by decide,by decide⟩
  few := by decide
  trail_blank := forall_chars rfl
  apart := by decide

def quotedLine : Line where
  lead := []
  keyword := "hostname".toList
  args := [([' ','\t'],.quoted "my # node".toList)]
  trail := [' ']
  comment := none
  lead_blank := forall_chars rfl
  args_valid := by
    intro a ha
    rw [mem_singleton.mp ha]
    exact ⟨by decide,forall_chars rfl,show '"' ∉ _ by decide⟩
  few := by decide
  trail_blank := forall_chars rfl
  apart := by decide

theorem quoted_line_as_written :
    ∃ o,parseConfigFile quiet (.bytes (quotedLine.text ++ ['\n'])) = some o ∧
      o.lines.getD 0 [] = [.call "Hostname".toList ["my # node".toList] 1] := by
  obtain ⟨o,ho,hr⟩ := config_lines_as_written quiet (quotedLine.text ++ ['\n'])
  have hrt : o.ret = 0 := by
    cases ho
    rfl
  refine ⟨o,ho,?_⟩
  have hl := hr 0 quotedLine.text rfl (.inl hrt)
  refine (hl.called quotedLine ⟨"Hostname".toList,1,1⟩ rfl (by decide) (by decide)
    (by decide)).mpr ⟨rfl,?_⟩
  refine ⟨?_,?_,trivial,?_⟩
  · intro ch hch
    cases hch
    rfl
  · intro h
    cases h
  · intro ch hch
    exact mem_singleton.mp hch

/-- A comment behind the argument is counted as a second one. -/
theorem comment_counted_as_argument :
    hostLine.text = "Hostname node0 # name".toList ∧ hostLine.values = ["node0".toList] ∧
      (⟨"Hostname".toList,1,1⟩ : Token) ∈ tokens ∧
      (parseConfigFile quiet (.bytes "Hostname node0 # name\n".toList)).map Outcome.lines =
        some [[invalidCount quiet 1 2]] := by
  refine ⟨by decide,by decide,by decide,?_⟩
  decide

end Mpss.Proofs.ConfigRead
