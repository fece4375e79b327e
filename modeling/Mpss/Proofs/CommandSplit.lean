import Mpss.Proofs.CommandWords

namespace Mpss.Proofs.CommandSplit
open Library.Outcomes Systools.CliParser CommandWords List Option

/-- A word in its role; an option word may have the word behind it as its argument. -/
inductive Piece
  | option (word : Word) (separate : Option Word)
  | subcommand (word : Word)
  | positional (word : Word)

def Piece.words : Piece → List Word
  | .option word separate => word :: separate.toList
  | .subcommand word => [word]
  | .positional word => [word]

/-- An option with the separate word that is its argument, or with its default. -/
def single (d : Definitions) (name : Word) (separate : Option Word) : Option (List Entry) :=
  match d.findOption name with
  | none => none
  | some o =>
    match o.argumentDef,separate with
    | none,none => some [(name,false,[])]
    | none,some _ => none
    | some _,some value => some [(name,true,value)]
    | some a,none => if a.required then none else some [(name,false,a.defaultValue)]

/-- The options of a group of letters: only the last one may have the separate word. -/
def group (d : Definitions) : List Char → Option Word → Option (List Entry)
  | [],separate => if separate.isNone then some [] else none
  | letter :: letters,separate =>
    if letters.isEmpty then single d (findLongOptionFromShort d letter) separate
    else do
      let one ← single d (findLongOptionFromShort d letter) none
      let more ← group d letters separate
      some (one ++ more)

/-- The options that an option word names, each with its attached or separate argument or its
default. -/
def named (d : Definitions) : Word → Option Word → Option (List Entry)
  | '-' :: '-' :: option,separate =>
    if option.contains '=' then
      if separate.isNone && (d.findOption (nameOf option)).any (·.hasArgument) then
        some [(nameOf option,true,valueOf option)]
      else none
    else single d option separate
  | '-' :: letters,separate => group d letters separate
  | _,_ => none

def Piece.entries (d : Definitions) : Piece → List Entry
  | .option word separate => (named d word separate).getD []
  | _ => []

def Piece.subcommands : Piece → List Word
  | .subcommand word => [word]
  | _ => []

def Piece.positionals : Piece → List Word
  | .positional word => [word]
  | _ => []

def Piece.Fits (d : Definitions) : Piece → Prop
  | .option word separate => possibleOption word = true ∧ (named d word separate).isSome = true ∧
      ∀ value ∈ separate,possibleOption value = false
  | .subcommand word => possibleOption word = false ∧ (d.findSubcommand word).isSome = true
  | .positional word => possibleOption word = false

def given (st : Parsed) : List Word := if st.subcommand = [] then [] else [st.subcommand]

/-- Every word has one role, from left to right, and what has been parsed is what the words say. -/
structure Splits (d : Definitions) (words : List Word) (st : Parsed) (pieces : List Piece) : Prop where
  whole : pieces.flatMap Piece.words = words
  fits : ∀ p ∈ pieces,p.Fits d
  options : ∀ e,e ∈ st.options ↔ e ∈ pieces.flatMap (Piece.entries d)
  once : (st.options.map Prod.fst).Nodup
  subcommand : pieces.flatMap Piece.subcommands = given st
  arguments : pieces.flatMap Piece.positionals = st.arguments

/-- A word not taken as it is meant: a letter before the last takes the next word, or an empty
attached value is taken for a missing one. -/
def bends (d : Definitions) (word : Word) (rest : List Word) : Bool :=
  match word with
  | '-' :: '-' :: option =>
    option.contains '=' && (valueOf option).isEmpty &&
      (d.findOption (nameOf option)).any (fun o => o.argumentDef.any (fun a =>
        takeable rest || !a.defaultValue.isEmpty))
  | '-' :: letters =>
    takeable rest && letters.dropLast.any (fun letter =>
      (d.findOption (findLongOptionFromShort d letter)).any (·.hasArgument))
  | _ => false

def Straight (d : Definitions) : List Word → Prop
  | [] => True
  | word :: rest => bends d word rest = false ∧ Straight d rest

instance decidableStraight (d : Definitions) : (words : List Word) → Decidable (Straight d words)
  | [] => inferInstanceAs (Decidable True)
  | _ :: rest =>
    have := decidableStraight d rest
    inferInstanceAs (Decidable (_ ∧ _))

inductive Run (d : Definitions) : List Word → Parsed → Parsed → Prop
  | done : Run d [] st st
  | turn (step : parseArgument d word rest st = .ok (st',rest')) (more : Run d rest' st' u) :
      Run d (word :: rest) st u

variable {option word : Word}

theorem Straight.drop (h : Straight d (before ++ rest)) : Straight d rest := by
  induction before with
  | nil => exact h
  | cons word before ih => exact ih h.2

theorem taken_of_parse (hd : Usable d) (h : parseArgument d word rest st = .ok (st',rest')) :
    ∃ taken,rest = taken ++ rest' ∧ ∀ arg ∈ taken,possibleOption arg = false := by
  by_cases hw : possibleOption word = true
  · exact (parseArgument_adds hd hw h).taken
  · exact ⟨[],(parseArgument_loose (by simpa using hw) h).1.symm,by simp⟩

theorem run_of_parse (hd : Usable d) (ht : words.length ≤ turns)
    (h : parseArguments d turns words st = .ok u) : Run d words st u := by
  induction turns generalizing words st with
  | zero =>
    obtain rfl := length_eq_zero_iff.mp (Nat.le_zero.mp ht)
    cases h
    exact .done
  | succ turns ih =>
    obtain _ | ⟨word,rest⟩ := words
    · cases h
      exact .done
    obtain ⟨⟨st1,rest1⟩,ho,hm⟩ := bind_ok.mp h
    obtain ⟨taken,htk,_⟩ := taken_of_parse hd ho
    have hl := congrArg length htk
    rw [length_append] at hl
    refine .turn ho (ih ?_ hm)
    rw [length_cons] at ht
    omega

structure Follows (d : Definitions) (word : Word) (rest : List Word) (st st' : Parsed)
    (rest' : List Word) (p : Piece) : Prop where
  words : p.words ++ rest' = word :: rest
  fits : p.Fits d
  options : st'.options = st.options ++ p.entries d
  subcommand : given st' = given st ++ p.subcommands
  arguments : st'.arguments = st.arguments ++ p.positionals

theorem single_of_took (ho : d.findOption option = some o) (hp : '=' ∉ option)
    (ht : Took o option rest found value rest') :
    ∃ separate : Option Word,single d option separate = some [(option,found,value)] ∧
      separate.toList ++ rest' = rest ∧ (∀ arg ∈ separate,possibleOption arg = false) ∧
      (separate.isSome = true → takeable rest = true ∧ o.hasArgument = true) := by
  cases ht with
  | attached has value => exact absurd (valueOf_plain hp) value
  | bare has _ => exact ⟨none,by simp [single,ho,has],rfl,by simp,by simp⟩
  | separate has _ next loose =>
    refine ⟨some value,by simp [single,ho,has],next.symm,by simpa using loose,?_⟩
    intro _
    simp [next,takeable,loose,OptionDef.hasArgument,has]
  | default has optional _ _ => exact ⟨none,by simp [single,ho,has,optional,hp],rfl,by simp,by simp⟩

theorem follows_option (separate : Option Word) (hw : possibleOption word = true)
    (hn : named d word separate = some new)
    (hst : st' = { st with options := st.options ++ new }) (hr : separate.toList ++ rest' = rest)
    (hl : ∀ arg ∈ separate,possibleOption arg = false) :
    Follows d word rest st st' rest' (.option word separate) := by
  subst hst
  exact ⟨by simp [Piece.words,hr],⟨hw,by simp [hn],hl⟩,by simp [Piece.entries,hn],
    by simp [given,Piece.subcommands],by simp [Piece.positionals]⟩

theorem follows_long (hs : bends d ('-' :: '-' :: option) rest = false)
    (h : processLongOption d option false rest st = .ok (st',rest')) :
    ∃ p,Follows d ('-' :: '-' :: option) rest st st' rest' p := by
  obtain ⟨o,found,value,ho,_,hst,ht⟩ := processLongOption_took h
  by_cases hc : '=' ∈ option
  · have ha : found = true ∧ value = valueOf option ∧ rest' = rest ∧ o.hasArgument = true := by
      cases ht with
      | attached has value => exact ⟨rfl,rfl,rfl,by simp [OptionDef.hasArgument,has]⟩
      | bare _ plain => exact absurd hc plain
      | separate has empty next loose => simp [bends,hc,empty,ho,has,next,takeable,loose] at hs
      | default has _ empty _ =>
        simp only [bends,hc,contains_eq_mem,decide_true,empty,isEmpty_nil,ho,any_some,has,
          Bool.true_and,Bool.or_eq_false_iff,Bool.not_eq_false',List.isEmpty_iff] at hs
        exact ⟨by simpa using hc,by rw [hs.2,empty],rfl,by simp [OptionDef.hasArgument,has]⟩
    obtain ⟨rfl,rfl,rfl,hh⟩ := ha
    exact ⟨_,follows_option none rfl (by simp [named,hc,ho,hh]) hst rfl (by simp)⟩
  · rw [nameOf_plain hc] at ho hst
    obtain ⟨separate,hsn,hr,hl,_⟩ := single_of_took ho hc ht
    exact ⟨_,follows_option separate rfl (by simpa [named,hc] using hsn) hst hr hl⟩

theorem named_group (h : letters.head? ≠ some '-') :
    named d ('-' :: letters) separate = group d letters separate := by
  rw [named]
  exact no_dash h

theorem bends_group (h : letters.head? ≠ some '-') :
    bends d ('-' :: letters) rest = (takeable rest && letters.dropLast.any (fun letter =>
      (d.findOption (findLongOptionFromShort d letter)).any (·.hasArgument))) := by
  rw [bends]
  exact no_dash h

section
variable (hd : Usable d)
include hd

theorem group_of_process (hs : takeable rest = true → ∀ letter ∈ letters.dropLast,
      (d.findOption (findLongOptionFromShort d letter)).any (·.hasArgument) = false)
    (h : processGroup d letters rest st = .ok (st',rest')) :
    ∃ (separate : Option Word) (new : List Entry),group d letters separate = some new ∧
      st' = { st with options := st.options ++ new } ∧ separate.toList ++ rest' = rest ∧
      ∀ arg ∈ separate,possibleOption arg = false := by
  induction letters generalizing rest st with
  | nil =>
    cases h
    exact ⟨none,[],rfl,by simp,rfl,by simp⟩
  | cons letter letters ih =>
    obtain ⟨o,found,value,rest1,ho,hto,hm⟩ := processGroup_cons hd h
    obtain ⟨separate,hsn,hr,hls,htk⟩ := single_of_took ho (letter_plain hd) hto
    obtain _ | ⟨letter',letters⟩ := letters
    · cases hm
      exact ⟨separate,_,by simpa [group] using hsn,rfl,hr,hls⟩
    obtain _ | value := separate
    · subst hr
      obtain ⟨separate,new,hg,rfl,hr,hls⟩ := ih (fun ht l hl => hs ht l (.tail _ hl)) hm
      refine ⟨separate,(findLongOptionFromShort d letter,found,value) :: new,?_,by simp,hr,hls⟩
      rw [group,if_neg (by simp),hsn]
      simp [hg]
    · obtain ⟨ht,hh⟩ := htk rfl
      have hf := hs ht letter mem_cons_self
      simp [ho,hh] at hf

theorem findSubcommand_ne_nil (h : (d.findSubcommand word).isSome = true) : word ≠ [] := by
  obtain ⟨s,hs⟩ := isSome_iff_exists.mp h
  have hn : s.subcommandName = word := by simpa using find?_some hs
  exact hn ▸ hd.subcommands s (mem_of_find?_eq_some hs)

theorem follows_of_parse (hs : bends d word rest = false)
    (h : parseArgument d word rest st = .ok (st',rest')) : ∃ p,Follows d word rest st st' rest' p := by
  by_cases hw : possibleOption word = true
  · rcases possibleOption_cases hw with ⟨option,rfl⟩ | ⟨letters,rfl,hl⟩
    · exact follows_long hs h
    rw [parseArgument_group hl] at h
    rw [bends_group hl] at hs
    obtain ⟨separate,new,hg,hst,hr,hls⟩ := group_of_process hd (fun ht letter hm => by
        rw [ht,Bool.true_and,List.any_eq_false] at hs
        simpa using hs letter hm) h
    exact ⟨_,follows_option separate rfl (by rw [named_group hl,hg]) hst hr hls⟩
  · have hw : possibleOption word = false := by simpa using hw
    obtain ⟨rfl,⟨_,he,hf,rfl⟩ | ⟨_,rfl⟩⟩ := parseArgument_loose hw h
    · refine ⟨.subcommand word,rfl,⟨hw,hf⟩,by simp [Piece.entries],?_,by simp [Piece.positionals]⟩
      simp [given,he,findSubcommand_ne_nil hd hf,Piece.subcommands]
    · exact ⟨.positional word,rfl,hw,by simp [Piece.entries],by simp [given,Piece.subcommands],rfl⟩

theorem pieces_of_run (hr : Run d words st u) (hs : Straight d words) :
    ∃ pieces : List Piece,pieces.flatMap Piece.words = words ∧ (∀ p ∈ pieces,p.Fits d) ∧
      u.options = st.options ++ pieces.flatMap (Piece.entries d) ∧
      given u = given st ++ pieces.flatMap Piece.subcommands ∧
      u.arguments = st.arguments ++ pieces.flatMap Piece.positionals := by
  induction hr with
  | done => exact ⟨[],rfl,by simp,by simp,by simp,by simp⟩
  | turn step more ih =>
    obtain ⟨p,hp⟩ := follows_of_parse hd hs.1 step
    obtain ⟨taken,ht,_⟩ := taken_of_parse hd step
    obtain ⟨pieces,hw,hf,ho,hg,ha⟩ := ih (ht ▸ hs.2).drop
    refine ⟨p :: pieces,?_,?_,?_,?_,?_⟩
    · rw [flatMap_cons,hw,hp.words]
    · exact forall_mem_cons.mpr ⟨hp.fits,hf⟩
    · rw [ho,hp.options,append_assoc,flatMap_cons]
    · rw [hg,hp.subcommand,append_assoc,flatMap_cons]
    · rw [ha,hp.arguments,append_assoc,flatMap_cons]

theorem options_of_run (hr : Run d words st u) :
    (∃ new : List Entry,u.options = st.options ++ new ∧ new.map Prod.fst = words.flatMap (asked d))
      ∧ ((st.options.map Prod.fst).Nodup → (u.options.map Prod.fst).Nodup) := by
  induction hr with
  | done => exact ⟨⟨[],by simp,rfl⟩,id⟩
  | @turn word rest st st' rest' u step more ih =>
    obtain ⟨⟨more,hm,hnm⟩,hon⟩ := ih
    obtain ⟨taken,ht,hl⟩ := taken_of_parse hd step
    have hs : rest.flatMap (asked d) = rest'.flatMap (asked d) := by
      rw [ht,flatMap_append,flatMap_eq_nil_iff.mpr (fun arg ha => asked_loose (hl arg ha)),nil_append]
    by_cases hw : possibleOption word = true
    · obtain ⟨⟨new,hst,hn⟩,_,ho⟩ := parseArgument_adds hd hw step
      refine ⟨⟨new ++ more,?_,?_⟩,hon ∘ ho⟩
      · rw [hm,hst,append_assoc]
      · rw [map_append,hn,hnm,flatMap_cons,hs]
    have hw : possibleOption word = false := by simpa using hw
    have hk : st'.options = st.options := by
      obtain ⟨_,⟨_,_,_,rfl⟩ | ⟨_,rfl⟩⟩ := parseArgument_loose hw step
      all_goals rfl
    rw [hk] at hm hon
    exact ⟨⟨more,hm,by rw [hnm,flatMap_cons,asked_loose hw,hs,nil_append]⟩,hon⟩

theorem splits_of_straight (hr : Run d words .empty u) (hs : Straight d words) :
    ∃ pieces,Splits d words u pieces := by
  obtain ⟨pieces,hw,hf,ho,hg,ha⟩ := pieces_of_run hd hr hs
  refine ⟨pieces,hw,hf,?_,(options_of_run hd hr).2 (by simp [Parsed.empty]),?_,?_⟩
  · intro e
    rw [ho]
    rfl
  · rw [hg]
    rfl
  · rw [ha]
    rfl

end

end Mpss.Proofs.CommandSplit
