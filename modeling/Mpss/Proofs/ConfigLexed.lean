import Mathlib.Data.List.Forall2
import Mathlib.Data.List.TakeWhile
import Mpss.Mpssconfig.Parse

namespace Mpss.Proofs.ConfigLexed
open Mpssconfig.Miclist Mpssconfig.Parse Option List

/-- The part of a line that one turn takes: white space, an opening quote, a word, and the rest
behind a character that is overwritten. -/
inductive Piece
  | last (lead quote word : Name) (unclosed : Bool)
  | cut (lead quote word : Name) (stop : Char) (after : Name)

def Piece.text : Piece → Name
  | .last lead quote word _ => lead ++ quote ++ word
  | .cut lead quote word stop after => lead ++ quote ++ word ++ stop :: after

def Piece.word : Piece → Name
  | .last _ _ word _ => word
  | .cut _ _ word _ _ => word

def Piece.front : Piece → Name
  | .last lead quote word _ => lead ++ quote ++ word
  | .cut lead quote word _ _ => lead ++ quote ++ word

def cutAt (lead quote : Name) (c : Char) (t : Name) : Piece :=
  .cut lead quote (t.takeWhile (· ≠ c)) c (t.dropWhile (· ≠ c)).tail

def piece (t : Name) : Piece :=
  match t.dropWhile isSpace with
  | [] => .last (t.takeWhile isSpace) [] [] false
  | c :: u =>
    if c = '#' then .last (t.takeWhile isSpace) [] (c :: u) false
    else if c = '"' then
      if '"' ∈ u then cutAt (t.takeWhile isSpace) ['"'] '"' u
        else .last (t.takeWhile isSpace) ['"'] u true
    else if ' ' ∈ c :: u then cutAt (t.takeWhile isSpace) [] ' ' (c :: u)
    else if '\t' ∈ c :: u then cutAt (t.takeWhile isSpace) [] '\t' (c :: u)
    else .last (t.takeWhile isSpace) [] (c :: u) false

/-- The words that the lexer takes from a line in `n` turns, and whether a quote is not closed. -/
def pieces : Nat → Name → List Name × Bool
  | 0,t => ([t],false)
  | n + 1,t =>
    match piece t with
    | .last _ _ word unclosed => ([word],unclosed)
    | .cut _ _ word _ after =>
      if after.dropWhile (· = ' ') = [] then ([word],false)
      else (word :: (pieces n (after.dropWhile (· = ' '))).1,(pieces n (after.dropWhile (· = ' '))).2)

def front (t : Name) : Name := (piece t).front

def commented (t : Name) : Bool := (t.dropWhile isSpace).head? = some '#'

def textEvents (c : Context) (lineno : Nat) (t : Name) : List Event :=
  if commented t then []
  else
    let ws := pieces (maxArgs - 1) t
    let warning := if ws.2 then [missingQuote c lineno] else []
    if ws.1.length = 1 ∧ (front t).length = 0 then warning else warning ++
      [dispatch c lineno (front t) ws.1.tail]

theorem cut_at_text {t : Name} (hc : ch ∈ t) :
    t.takeWhile (· ≠ ch) ++ ch :: (t.dropWhile (· ≠ ch)).tail = t := by
  have hs := takeWhile_append_dropWhile (p := (· ≠ ch)) (l := t)
  cases hd : t.dropWhile (· ≠ ch) with
  | nil =>
    have := dropWhile_eq_nil_iff.mp hd ch hc
    simp at this
  | cons x u =>
    have hx := head?_dropWhile_not (p := (· ≠ ch)) t
    rw [hd] at hx hs
    have hxc : x = ch := by simpa using hx
    rw [hxc] at hs
    exact hs

theorem cut_at_append (hc : ch ∈ t) : (cutAt ws quote ch t).text = ws ++ quote ++ t := by
  rw [cutAt,Piece.text,append_assoc,cut_at_text hc]

theorem piece_text (t : Name) : (piece t).text = t := by
  have hsp := takeWhile_append_dropWhile (p := isSpace) (l := t)
  unfold piece
  cases hd : t.dropWhile isSpace with
  | nil =>
    rw [hd] at hsp
    rw [Piece.text,append_nil,hsp]
  | cons c u =>
    rw [hd] at hsp
    generalize t.takeWhile isSpace = ws at hsp
    have ha : ws ++ [] ++ (c :: u) = t := by rw [append_nil,hsp]
    simp only
    split
    · exact ha
    split
    · rename_i hq
      have hqt : ws ++ ['"'] ++ u = t := by rw [append_assoc,singleton_append,← hq,hsp]
      split_ifs with hu
      · rw [cut_at_append hu,hqt]
      · exact hqt
    split
    · rename_i hs
      rw [cut_at_append hs,ha]
    split_ifs with ht
    · rw [cut_at_append ht,ha]
    · exact ha

variable {m : Image} {p q i a b : Nat} {t w tail : Name}

/-- From `p` on the image has the text, its end and then `tail`. -/
structure Text (m : Image) (p : Nat) (t tail : Name) : Prop where
  drop : m.drop p = t ++ nul :: tail
  plain : nul ∉ t

theorem Text.advance (ht : Text m p (t ++ w) tail) : Text m (p + t.length) w tail where
  drop := by rw [← drop_drop,ht.drop,append_assoc,drop_left]
  plain := fun h => ht.plain (mem_append_right t h)

theorem text_set (hm : m.drop p = t ++ c :: tail) (hp : nul ∉ t) :
    Text (m.set (p + t.length) nul) p t tail where
  drop := by
    rw [drop_set,if_neg (by omega),Nat.add_sub_cancel_left,hm,set_append,if_neg
      (by omega),Nat.sub_self]
    rfl
  plain := hp

section
variable (ht : Text m p t tail)
include ht

theorem Text.str : str m p = t := by
  rw [Mpssconfig.Parse.str,ht.drop,takeWhile_append_of_pos]
  · simp
  · intro c hc
    have : c ≠ nul := fun he => ht.plain (he ▸ hc)
    simpa using this

theorem Text.deref : deref m p = t.head?.getD nul := by
  have hg : m.getD p nul = (m.drop p).head?.getD nul := by rw [head?_drop,getD_eq_getElem?_getD]
  rw [Mpssconfig.Parse.deref,hg,ht.drop]
  cases t <;> rfl

theorem Text.skip (hf : f nul = false) : skip f m p = p + (t.takeWhile f).length := by
  have he : (nul :: tail).takeWhile f = [] := takeWhile_cons_of_neg (by simp [hf])
  rw [Mpssconfig.Parse.skip,ht.drop,takeWhile_append,he]
  split_ifs with ha
  · rw [append_nil,ha]
  · rfl

theorem Text.strchr :
    strchr m p c = if c ∈ t then some (p + (t.takeWhile (· ≠ c)).length) else none := by
  rw [Mpssconfig.Parse.strchr,ht.str]

theorem Text.rest : m.drop (p + t.length + 1) = tail := by
  rw [add_assoc,← drop_drop,ht.drop,← drop_drop,drop_left]
  rfl

end

theorem Text.cut (ht : Text m p (t ++ c :: w) tail) :
    Text (m.set (p + t.length) nul) p t (w ++ nul :: tail) ∧ Text (m.set (p + t.length) nul)
    (p + t.length + 1) w tail := by
  have hd : m.drop p = t ++ c :: (w ++ nul :: tail) := by rw [ht.drop,append_assoc,cons_append]
  have hf : Text (m.set (p + t.length) nul) p t (w ++ nul :: tail) :=
    text_set hd fun h => ht.plain (mem_append_left _ h)
  refine ⟨hf,hf.rest,fun h => ht.plain (mem_append_right t ?_)⟩
  exact .tail c h

def Word (m : Image) (p : Nat) (w : Name) : Prop := ∃ tail,Text m p w tail

theorem Word.str (hw : Word m p w) : str m p = w := by
  obtain ⟨tail,ht⟩ := hw
  exact ht.str

theorem Word.set (hw : Word m p w) (hi : p + w.length < i) : Word (m.set i nul) p w := by
  obtain ⟨tail,ht⟩ := hw
  refine ⟨tail.set (i - p - w.length - 1) nul,?_,ht.plain⟩
  have hk : ∃ k,i - p - w.length = k + 1 := ⟨i - p - w.length - 1,by omega⟩
  obtain ⟨k,hk⟩ := hk
  rw [drop_set,if_neg (by omega),ht.drop,set_append,if_neg (by omega),hk]
  rfl

inductive Cuts (a b : Nat) (m : Image) : Image → Prop
  | refl : Cuts a b m m
  | set {m' : Image} (i : Nat) : Cuts a b m m' → a ≤ i → i < b → Cuts a b m (m'.set i nul)

section
variable (h : Cuts a b m m')
include h

theorem Cuts.trans (h' : Cuts a b m' m'') : Cuts a b m m'' := by
  induction h' with
  | refl => exact h
  | set i _ ha hb ih => exact .set i ih ha hb

theorem Cuts.mono (ha : a' ≤ a) (hb : b ≤ b') : Cuts a' b' m m' := by
  induction h with
  | refl => exact .refl
  | set i _ hi hj ih => exact .set i ih (ha.trans hi) (hj.trans_le hb)

theorem Cuts.word (hw : Word m p w) (hp : p + w.length < a) : Word m' p w := by
  induction h with
  | refl => exact hw
  | set i _ hi _ ih => exact ih.set (hp.trans_le hi)

theorem Cuts.drop (hb : b ≤ p) : m'.drop p = m.drop p := by
  induction h with
  | refl => rfl
  | set i _ _ hi ih => rw [drop_set,if_pos (hi.trans_le hb),ih]

end

variable {s : Lexer}

theorem terminate_spec (ht : Text s.image p (t ++ c :: w) tail) :
    terminate s (p + t.length) =
      if w.dropWhile (· = ' ') = [] then .doneLexing
        { s with image := s.image.set (p + t.length) nul } false
      else .again ⟨s.image.set (p + t.length) nul,s.before ++ [s.here],
        p + t.length + 1 + (w.takeWhile (· = ' ')).length⟩ := by
  have hw := ht.cut.2
  have hs := hw.skip (f := (· = ' ')) (by decide)
  have hr : Text (s.image.set (p + t.length) nul) (p + t.length + 1 + (w.takeWhile (· = ' ')).length)
      (w.dropWhile (· = ' ')) tail := by
    refine Text.advance ?_
    rw [takeWhile_append_dropWhile]
    exact hw
  unfold terminate
  simp only [hs,hr.deref]
  cases hd : w.dropWhile (· = ' ') with
  | nil => simp
  | cons x u =>
    have hx : x ≠ nul := by
      rintro rfl
      refine hr.plain ?_
      rw [hd]
      exact mem_cons_self
    simp [hx]

def pieceTurn (s : Lexer) (t : Name) : Turn :=
  match piece t with
  | .last lead quote _ unclosed =>
    .doneLexing { s with here := s.here + (lead ++ quote).length } unclosed
  | .cut lead quote word _ _ =>
    terminate { s with here := s.here + (lead ++ quote).length }
      (s.here + (lead ++ quote ++ word).length)

/-- The last turn in a line leaves a word at `args[arg]`. -/
structure Ended (s s' : Lexer) (t w : Name) : Prop where
  before : s'.before = s.before
  word : Word s'.image s'.here w
  front : Word s'.image s.here (front t)
  cuts : Cuts s.here (s.here + t.length) s.image s'.image

/-- Any other turn leaves a word at `args[arg]` and goes on with the rest of the line. -/
structure Went (s s' : Lexer) (t w rest tail : Name) : Prop where
  before : ∃ p,s'.before = s.before ++ [p] ∧ Word s'.image p w ∧ p + w.length < s'.here
  front : Word s'.image s.here (front t) ∧ s.here + (front t).length < s'.here
  cuts : Cuts s.here s'.here s.image s'.image
  text : Text s'.image s'.here rest tail
  stop : s'.here + rest.length = s.here + t.length

section
variable (ht : Text s.image s.here t tail)
include ht

theorem turn_spec :
    turn s = if commented t ∧ s.before = [] then .nextLine else pieceTurn s t := by
  have hs := ht.skip (f := isSpace) (by decide)
  have hr : Text s.image (s.here + (t.takeWhile isSpace).length) (t.dropWhile isSpace) tail := by
    refine Text.advance ?_
    rw [takeWhile_append_dropWhile]
    exact ht
  unfold turn Mpssconfig.Parse.choose pieceTurn piece
  rw [hs]
  generalize t.takeWhile isSpace = ws at hr
  have hde := hr.deref
  cases hd : t.dropWhile isSpace with
  | nil =>
    have hcm : commented t = false := by simp [commented,hd]
    rw [hd] at hr hde
    simp [hde,hr.str,hcm,nul]
  | cons c u =>
    rw [hd] at hr hde
    have hcm : commented t = decide (c = '#') := by simp [commented,hd]
    have hf : deref s.image (s.here + ws.length) = c := hde
    have htl : Text s.image (s.here + ws.length + 1) u tail := by
      have := hr.advance (t := [c])
      simpa using this
    simp only [hf,hr.str,hcm]
    by_cases hc : c = '#'
    · simp [hc]
    rw [if_neg hc,if_neg (show ¬ (decide (c = '#') = true ∧ s.before = []) by simp [hc]),if_neg hc]
    by_cases hq : c = '"'
    · rw [if_pos hq,if_pos hq]
      simp only [htl.strchr]
      by_cases hu : '"' ∈ u
      · simp [hu,cutAt,add_assoc,add_comm 1]
      · simp [hu,add_assoc]
    rw [if_neg hq,if_neg hq,if_neg (by simp),hr.strchr,hr.strchr]
    by_cases hsp : ' ' ∈ c :: u
    · simp only [if_pos hsp,some_or,cutAt]
      simp [add_assoc]
    rw [if_neg hsp,if_neg hsp,none_or]
    by_cases htb : '\t' ∈ c :: u
    · simp only [if_pos htb,cutAt]
      simp [add_assoc]
    · simp only [if_neg htb]
      simp

theorem turn_cases (hc : ¬ (commented t ∧ s.before = [])) (n : Nat) :
    (∃ s' w u,turn s = .doneLexing s' u ∧ pieces (n + 1) t = ([w],u) ∧ Ended s s' t w) ∨
      ∃ s' w rest,turn s = .again s' ∧ pieces (n + 1) t = (w :: (pieces n rest).1,(pieces n rest).2)
        ∧ Went s s' t w rest tail := by
  have htx := piece_text t
  rw [turn_spec ht,if_neg hc,pieceTurn,pieces]
  cases hp : piece t with
  | last lead quote word unclosed =>
    rw [hp,Piece.text] at htx
    have hf : front t = lead ++ quote ++ word := by rw [front,hp,Piece.front]
    refine .inl ⟨_,word,unclosed,rfl,rfl,rfl,⟨tail,Text.advance ?_⟩,⟨tail,?_⟩,.refl⟩
    · rw [htx]
      exact ht
    · rw [hf,htx]
      exact ht
  | cut lead quote word stop after =>
    rw [hp,Piece.text] at htx
    have hf : front t = lead ++ quote ++ word := by rw [front,hp,Piece.front]
    have hal : Text s.image s.here (lead ++ quote ++ word ++ stop :: after) tail := by
      rw [htx]
      exact ht
    have hl := congrArg length htx
    simp only [length_append,length_cons] at hl
    obtain ⟨hfr,ha⟩ := hal.cut
    set m := s.image.set (s.here + (lead ++ quote ++ word).length) nul
    have hfw : Word m s.here (front t) := by
      rw [hf]
      exact ⟨_,hfr⟩
    have hw : Text m
        (s.here + (lead ++ quote).length) word (after ++ nul :: tail) := Text.advance hfr
    have hst : Cuts s.here (s.here + t.length) s.image
        m := by
      refine .set _ .refl (Nat.le_add_right _ _) ?_
      simp only [length_append]
      omega
    have htr := terminate_spec (s := { s with here := s.here + (lead ++ quote).length }) hal
    simp only at htr ⊢
    rw [htr]
    have hs := congrArg length (takeWhile_append_dropWhile (p := (· = ' ')) (l := after))
    rw [length_append] at hs
    by_cases hd : after.dropWhile (· = ' ') = []
    · rw [if_pos hd,if_pos hd]
      exact .inl ⟨_,word,false,rfl,rfl,rfl,⟨_,hw⟩,hfw,hst⟩
    rw [if_neg hd,if_neg hd]
    refine .inr ⟨_,word,_,rfl,rfl,⟨_,rfl,⟨_,hw⟩,?_⟩,⟨hfw,?_⟩,?_,?_,?_⟩
    · simp only [length_append]
      omega
    · rw [hf]
      simp only [length_append]
      omega
    · refine .set _ .refl (Nat.le_add_right _ _) ?_
      simp only
      omega
    · refine Text.advance ?_
      rw [takeWhile_append_dropWhile]
      exact ha
    · simp only [length_append]
      omega

theorem lex_spec (hb : s.before ≠ [])
    (hw : List.Forall₂ (fun p w => Word s.image p w ∧ p + w.length < s.here) s.before ws) :
    ∃ s',lex n s = some (s',(pieces n t).2) ∧ Cuts s.here (s.here + t.length) s.image s'.image ∧
      List.Forall₂ (Word s'.image) (s'.before ++ [s'.here]) (ws ++ (pieces n t).1) := by
  induction n generalizing s t ws with
  | zero =>
    refine ⟨s,rfl,.refl,?_⟩
    exact rel_append (hw.imp fun _ _ h => h.1) (.cons ⟨tail,ht⟩ .nil)
  | succ n ih =>
    rw [Mpssconfig.Parse.lex]
    rcases turn_cases ht (fun h => hb h.2) n with ⟨s',w,u,htr,hp,he⟩ | ⟨s',w,rest,htr,hp,hg⟩
    · rw [htr,hp]
      refine ⟨s',rfl,he.cuts,?_⟩
      rw [he.before]
      exact rel_append (hw.imp fun _ _ h => he.cuts.word h.1 h.2) (.cons he.word .nil)
    rw [htr,hp]
    obtain ⟨p,hbf,hwr,hbl⟩ := hg.before
    have hle : s.here ≤ s'.here := le_of_lt ((Nat.le_add_right _ _).trans_lt hg.front.2)
    have hs := hg.stop
    have hw' : List.Forall₂ (fun p w => Word s'.image p w ∧ p + w.length < s'.here) s'.before
      (ws ++ [w]) := by
      rw [hbf]
      refine rel_append (hw.imp fun _ _ h => ⟨hg.cuts.word h.1 h.2,lt_of_lt_of_le h.2 hle⟩) ?_
      exact .cons ⟨hwr,hbl⟩ .nil
    obtain ⟨s'',hl,hc,ha⟩ := ih hg.text (by simp [hbf]) hw'
    refine ⟨s'',hl,?_,?_⟩
    · refine (hg.cuts.mono le_rfl (by omega)).trans (hc.mono hle ?_)
      rw [hs]
    · rwa [append_assoc] at ha

end

theorem lex_line (ht : Text m p t tail) (hc : ¬ commented t) :
    ∃ s',lex (n + 1) ⟨m,[],p⟩ = some (s',(pieces (n + 1) t).2) ∧ Cuts p (p + t.length) m s'.image ∧
      List.Forall₂ (Word s'.image) (s'.before ++ [s'.here]) (pieces (n + 1) t).1 ∧ Word s'.image p
      (front t) := by
  rw [Mpssconfig.Parse.lex]
  rcases turn_cases (s := ⟨m,[],p⟩) ht (fun h => hc h.1) n with
    ⟨s',w,u,htr,hp,he⟩ | ⟨s',w,rest,htr,hp,hg⟩
  · rw [htr,hp]
    refine ⟨s',rfl,he.cuts,?_,he.front⟩
    rw [he.before]
    exact .cons he.word .nil
  rw [htr,hp]
  obtain ⟨q,hb,hwr,hbl⟩ := hg.before
  have hle : p ≤ s'.here := le_of_lt ((Nat.le_add_right _ _).trans_lt hg.front.2)
  have hs : s'.here + rest.length = p + t.length := hg.stop
  have hw : List.Forall₂ (fun p w => Word s'.image p w ∧ p + w.length < s'.here) s'.before [w] := by
    rw [hb]
    exact .cons ⟨hwr,hbl⟩ .nil
  obtain ⟨s'',hl,hct,ha⟩ := lex_spec hg.text (by simp [hb]) hw
  refine ⟨s'',hl,?_,ha,hct.word hg.front.1 hg.front.2⟩
  have hf : Cuts p (p + t.length) m s'.image := hg.cuts.mono le_rfl (by omega)
  exact hf.trans (hct.mono hle (le_of_eq hs))

theorem lex_comment (ht : Text m p t tail) (hc : commented t) : lex (n + 1) ⟨m,[],p⟩ = none := by
  rw [Mpssconfig.Parse.lex,turn_spec (s := ⟨m,[],p⟩) ht,if_pos ⟨hc,rfl⟩]

theorem words_map (hw : List.Forall₂ (Word m) ps ws) : ps.map (str m) = ws := by
  induction hw with
  | nil => rfl
  | cons h _ ih => rw [map_cons,ih,h.str]

/-- What the parser does with a line only depends on its text, and it overwrites nothing else. -/
theorem parse_line (c : Context) (lineno : Nat) (ht : Text m p t tail) :
    ∃ m',parseLine c lineno m p = (textEvents c lineno t,m') ∧ Cuts p (p + t.length) m m' := by
  have hm : maxArgs - 1 = 8 + 1 := rfl
  unfold parseLine textEvents
  by_cases hc : commented t
  · rw [hm,lex_comment ht hc,if_pos hc]
    exact ⟨m,rfl,.refl⟩
  obtain ⟨s',hl,hct,hw,hf⟩ := lex_line ht hc
  refine ⟨s'.image,?_,hct⟩
  have hln : s'.before.length + 1 = (pieces 9 t).1.length := by simpa using hw.length_eq
  have ha : (s'.before ++ [s'.here]).tail.map (str s'.image) =
    (pieces 9 t).1.tail := by rw [map_tail,words_map hw]
  rw [hm,hl,if_neg hc]
  simp only [hf.str,ha,← hln,Nat.add_eq_right]
  split <;> rfl

end Mpss.Proofs.ConfigLexed
