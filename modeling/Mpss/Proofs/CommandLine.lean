import Mathlib.Data.List.Nodup
import Mpss.Proofs.CommandSplit

namespace Mpss.Proofs.CommandLine
open Library.Runs Systools.CliParser CommandWords CommandSplit List Option Bool

/-- A word cannot be read when its turn comes, behind words that have been read from left to
right. -/
inductive Refused (d : Definitions) : List Word → Parsed → Prop
  | here (step : parseArgument d word rest st = .error exit) : Refused d (word :: rest) st
  | later (step : parseArgument d word rest st = .ok (st',rest')) (more : Refused d rest' st') :
      Refused d (word :: rest) st

variable {d : Definitions} {st st' u : Parsed} {rest rest' : List Word} {word : Word}

variable {pieces : List Piece}

theorem behind_taken (hw : possibleOption word = true) (ht : ∀ arg ∈ taken,possibleOption arg = false)
    (h : taken ++ rest' = before ++ word :: rest) : ∃ before',rest' = before' ++ word :: rest := by
  induction taken generalizing before with
  | nil => exact ⟨before,h⟩
  | cons arg taken ih =>
    obtain ⟨ha,ht⟩ := forall_mem_cons.mp ht
    obtain _ | ⟨arg',before⟩ := before
    · obtain ⟨rfl,_⟩ := cons.inj h
      rw [hw] at ha
      cases ha
    · exact ih ht (cons.inj h).2

theorem run_reaches (hd : Usable d) (hw : possibleOption word = true) (hr : Run d words st u)
    (h : words = before ++ word :: rest) : ∃ st1,Run d (word :: rest) st1 u := by
  induction hr generalizing before with
  | done => simp at h
  | @turn word' rest0 st st' rest' u step more ih =>
    obtain _ | ⟨arg,before⟩ := before
    · obtain ⟨rfl,rfl⟩ := cons.inj h
      exact ⟨st,.turn step more⟩
    · obtain ⟨taken,ht,hl⟩ := taken_of_parse hd step
      obtain ⟨before',hb⟩ := behind_taken hw hl (ht.symm.trans (cons.inj h).2)
      exact ih hb

section
variable (h : Splits d words st pieces) (hm : word ∈ words) (hw : possibleOption word = true)
include h hm hw

theorem splits_piece : ∃ separate,Piece.option word separate ∈ pieces := by
  rw [← h.whole] at hm
  obtain ⟨p,hp,hm⟩ := mem_flatMap.mp hm
  have hf := h.fits p hp
  have hne : ∀ arg,possibleOption arg = false → word ≠ arg := by
    rintro arg ha rfl
    rw [hw] at ha
    cases ha
  cases p with
  | option word' separate =>
    rcases mem_cons.mp hm with rfl | hm
    · exact ⟨separate,hp⟩
    · exact absurd rfl (hne word (hf.2.2 word (mem_toList.mp hm)))
  | subcommand word' => exact absurd (mem_singleton.mp hm) (hne word' hf.1)
  | positional word' => exact absurd (mem_singleton.mp hm) (hne word' hf)

theorem splits_entered : ∃ separate new,named d word separate = some new ∧
    ∀ e ∈ new,e ∈ st.options := by
  obtain ⟨separate,hp⟩ := splits_piece h hm hw
  obtain ⟨new,hn⟩ := isSome_iff_exists.mp (h.fits _ hp).2.1
  refine ⟨separate,new,hn,?_⟩
  intro e he
  refine (h.options e).mpr (mem_flatMap.mpr ⟨_,hp,?_⟩)
  simpa [Piece.entries,hn] using he

end

theorem splits_same (h : Splits d words st pieces) (he : (name,found,value) ∈ st.options)
    (he' : (name,found',value') ∈ st.options) : found = found' ∧ value = value' := by
  have hs := inj_on_of_nodup_map h.once he he' rfl
  exact ⟨congrArg (fun e => e.2.1) hs,congrArg (fun e => e.2.2) hs⟩

def places (f : Word → Bool) : List Word → Nat
  | [] => 0
  | word :: rest => (if f word && takeable rest then 1 else 0) + places f rest

def wants (d : Definitions) (name : Word) : Bool := (d.findOption name).any (·.hasArgument)

def takes (d : Definitions) : Word → Bool
  | '-' :: '-' :: option => !option.contains '=' && wants d option
  | '-' :: letters => letters.getLast?.any (fun letter => wants d (findLongOptionFromShort d letter))
  | _ => false

def hollow (d : Definitions) : Word → Bool
  | '-' :: '-' :: option => option.contains '=' && (valueOf option).isEmpty && wants d (nameOf option)
  | _ => false

def loose (words : List Word) : Nat := words.countP (fun word => !possibleOption word)

def kept (st : Parsed) : Nat := (given st).length + st.arguments.length

theorem takes_group (h : letters.head? ≠ some '-') :
    takes d ('-' :: letters) = letters.getLast?.any
    (fun letter => wants d (findLongOptionFromShort d letter)) := by
  rw [takes]
  exact no_dash h

theorem takes_loose (h : possibleOption word = false) : takes d word = false := by
  unfold takes
  split
  · cases h
  · cases h
  · rfl

theorem hollow_group (h : letters.head? ≠ some '-') : hollow d ('-' :: letters) = false := by
  unfold hollow
  split
  · rename_i heq
    cases heq
    exact absurd rfl h
  · rfl

theorem hollow_loose (h : possibleOption word = false) : hollow d word = false := by
  unfold hollow
  split
  · cases h
  · rfl

theorem places_taken (hf : ∀ arg,possibleOption arg = false → f arg = false)
    (h : ∀ arg ∈ taken,possibleOption arg = false) : places f (taken ++ rest) = places f rest := by
  induction taken with
  | nil => rfl
  | cons arg taken ih =>
    obtain ⟨ha,h⟩ := forall_mem_cons.mp h
    rw [cons_append,places,hf arg ha,ih h]
    simp

theorem places_pos (hf : f word = true) (ht : takeable rest = true) :
    0 < places f (before ++ word :: rest) := by
  induction before with
  | nil =>
    simp only [nil_append,places,hf,ht,Bool.and_self,↓reduceIte]
    exact Nat.lt_add_right _ Nat.one_pos
  | cons arg before ih => exact Nat.lt_of_lt_of_le ih (Nat.le_add_left _ _)

theorem loose_cons : loose (word :: rest) = (if possibleOption word then 0 else 1) + loose rest := by
  cases hw : possibleOption word <;> simp [loose,hw,Nat.add_comm]

theorem loose_taken (h : ∀ arg ∈ taken,possibleOption arg = false) :
    loose (taken ++ rest) = taken.length + loose rest := by
  unfold loose
  rw [countP_append,countP_eq_length.mpr (by simpa using h)]

theorem took_shorter (h : Took o option rest found value rest') (hv : valueOf option = [])
    (hw : o.hasArgument = true) (ht : takeable rest = true) : rest'.length < rest.length := by
  cases h with
  | attached has value => exact absurd hv value
  | bare has plain => simp [OptionDef.hasArgument,has] at hw
  | separate has empty next loose => simp [next]
  | default has optional empty next =>
    rw [ht] at next
    cases next

theorem wants_of_find (ho : d.findOption name = some o) (h : wants d name = true) :
    o.hasArgument = true := by
  simpa [wants,ho] using h

theorem takes_or_hollow (d : Definitions) (word : Word) :
    takes d word = false ∨ hollow d word = false := by
  cases hw : possibleOption word with
  | false => exact .inl (takes_loose hw)
  | true =>
    rcases possibleOption_cases hw with ⟨option,rfl⟩ | ⟨letters,rfl,hl⟩
    · by_cases hc : '=' ∈ option
      · exact .inl (by simp [takes,hc])
      · exact .inr (by simp [hollow,hc])
    · exact .inr (hollow_group hl)

theorem single_wants (h : (single d name (some value)).isSome = true) : wants d name = true := by
  unfold single at h
  split at h
  · cases h
  · rename_i o ho
    cases ha : o.argumentDef with
    | none => simp [ha] at h
    | some a => simp [wants,ho,OptionDef.hasArgument,ha]

theorem group_wants (h : (group d letters (some value)).isSome = true) :
    letters.getLast?.any (fun letter => wants d (findLongOptionFromShort d letter)) = true := by
  induction letters with
  | nil => cases h
  | cons letter letters ih =>
    obtain _ | ⟨letter',letters⟩ := letters
    · simpa using single_wants h
    · obtain ⟨new,hn⟩ := isSome_iff_exists.mp h
      obtain ⟨one,_,hm⟩ := bind_eq_some_iff.mp hn
      obtain ⟨more,hg,_⟩ := bind_eq_some_iff.mp hm
      simpa using ih (by rw [hg]; rfl)

theorem named_takes (hw : possibleOption word = true)
    (h : (named d word (some value)).isSome = true) : takes d word = true := by
  rcases possibleOption_cases hw with ⟨option,rfl⟩ | ⟨letters,rfl,hl⟩
  · simp only [named,isNone_some,Bool.false_and,Bool.false_eq_true,↓reduceIte] at h
    split_ifs at h with hc
    · cases h
    · simpa [takes,single_wants h] using hc
  · rw [named_group hl] at h
    rw [takes_group hl]
    exact group_wants h

theorem pieces_loose (hf : ∀ p ∈ pieces,p.Fits d) :
    loose (pieces.flatMap Piece.words) ≤ (pieces.flatMap Piece.subcommands).length +
      (pieces.flatMap Piece.positionals).length + places (takes d) (pieces.flatMap Piece.words) := by
  induction pieces with
  | nil => exact le_rfl
  | cons p pieces ih =>
    obtain ⟨hp,hf⟩ := forall_mem_cons.mp hf
    have ih := ih hf
    simp only [flatMap_cons,length_append]
    cases p with
    | option word separate =>
      obtain _ | value := separate
      · simp only [Piece.words,Piece.subcommands,Piece.positionals,toList_none,singleton_append,
          places,length_nil,loose_cons,hp.1,↓reduceIte]
        omega
      · have hv : possibleOption value = false := hp.2.2 value rfl
        simp only [Piece.words,Piece.subcommands,Piece.positionals,toList_some,cons_append,
          nil_append,places,length_nil,named_takes hp.1 hp.2.1,loose_cons,hp.1,hv]
        simp only [takeable,head?_cons,any_some,hv,Bool.not_false,Bool.and_self,
          Bool.false_eq_true,↓reduceIte]
        omega
    | subcommand word =>
      simp only [Piece.words,Piece.subcommands,Piece.positionals,singleton_append,places,loose_cons,
        hp.1,length_nil,length_singleton,Bool.false_eq_true,↓reduceIte]
      omega
    | positional word =>
      have hw : possibleOption word = false := hp
      simp only [Piece.words,Piece.subcommands,Piece.positionals,singleton_append,places,loose_cons,
        hw,length_nil,length_singleton,Bool.false_eq_true,↓reduceIte]
      omega

section
variable (hd : Usable d)
include hd

theorem processGroup_shorter (ht : takeable rest = true)
    (hl : letters.getLast?.any (fun letter => wants d (findLongOptionFromShort d letter)) = true)
    (h : processGroup d letters rest st = .ok (st',rest')) : rest'.length < rest.length := by
  induction letters generalizing rest st with
  | nil => simp at hl
  | cons letter letters ih =>
    obtain ⟨o,found,value,rest1,ho,hto,hm⟩ := processGroup_cons hd h
    obtain ⟨taken,htk,_⟩ := hto.taken
    obtain _ | ⟨letter',letters⟩ := letters
    · cases hm
      exact took_shorter hto (valueOf_plain (letter_plain hd))
        (wants_of_find ho (by simpa using hl)) ht
    obtain ⟨taken',ht',_⟩ := (processGroup_adds hd hm).taken
    have hln := congrArg length htk
    have hl' := congrArg length ht'
    rw [length_append] at hln hl'
    obtain _ | ⟨arg,taken⟩ := taken
    · obtain rfl : rest = rest1 := htk
      exact ih ht (by simpa using hl) hm
    · rw [length_cons] at hln
      omega

theorem parseArgument_shorter (hw : takes d word = true ∨ hollow d word = true)
    (ht : takeable rest = true) (h : parseArgument d word rest st = .ok (st',rest')) :
    rest'.length < rest.length := by
  have hds : possibleOption word = true := by
    by_contra hno
    have hno : possibleOption word = false := by simpa using hno
    rw [takes_loose hno,hollow_loose hno] at hw
    simp at hw
  rcases possibleOption_cases hds with ⟨option,rfl⟩ | ⟨letters,rfl,hl⟩
  · obtain ⟨o,found,value,ho,_,_,htk⟩ := processLongOption_took h
    rcases hw with hw | hw
    · simp only [takes,contains_eq_mem,and_eq_true,not_eq_true',decide_eq_false_iff_not] at hw
      rw [nameOf_plain hw.1] at ho
      exact took_shorter htk (valueOf_plain hw.1) (wants_of_find ho hw.2) ht
    · simp only [hollow,List.contains_eq_mem,and_eq_true,decide_eq_true_eq,List.isEmpty_iff] at hw
      exact took_shorter htk hw.1.2 (wants_of_find ho hw.2) ht
  · rw [parseArgument_group hl] at h
    rw [takes_group hl,hollow_group hl] at hw
    exact processGroup_shorter hd ht (by simpa using hw) h

theorem parseArgument_kept_loose (hw : possibleOption word = false)
    (h : parseArgument d word rest st = .ok (st',rest')) : rest' = rest ∧ kept st' = kept st + 1 := by
  obtain ⟨hr,⟨_,he,hf,rfl⟩ | ⟨_,rfl⟩⟩ := parseArgument_loose hw h
  · refine ⟨hr,?_⟩
    simp only [kept,given,he,if_neg (findSubcommand_ne_nil hd hf),↓reduceIte,length_nil,
      length_singleton]
    exact Nat.add_right_comm 0 1 _ 
  · refine ⟨hr,?_⟩
    simp only [kept,given,length_append,length_singleton]
    exact (Nat.add_assoc _ _ _).symm

theorem parseArgument_kept (hw : possibleOption word = true)
    (h : parseArgument d word rest st = .ok (st',rest')) : kept st' = kept st := by
  obtain ⟨new,rfl,_⟩ := (parseArgument_adds hd hw h).entered
  rfl

theorem run_kept (hr : Run d words st u) :
    kept u + places (takes d) words + places (hollow d) words ≤ kept st + loose words := by
  induction hr with
  | done => exact Nat.le_add_right _ _
  | @turn word rest st st' rest' u step more ih =>
    cases hw : possibleOption word with
    | false =>
      obtain ⟨rfl,hk⟩ := parseArgument_kept_loose hd hw step
      simp only [places,takes_loose hw,hollow_loose hw,loose_cons,hw,Bool.false_and,
        Bool.false_eq_true,↓reduceIte]
      omega
    | true =>
      obtain ⟨taken,rfl,hl⟩ := (parseArgument_adds hd hw step).taken
      have ho : (if takes d word && takeable (taken ++ rest') then 1 else 0) +
          (if hollow d word && takeable (taken ++ rest') then 1 else 0) ≤ taken.length := by
        have hone : ∀ b : Bool,(b = true → takes d word = true ∨ hollow d word = true) →
            (if b && takeable (taken ++ rest') then 1 else 0) ≤ taken.length := by
          intro b hb
          split_ifs with h
          · rw [and_eq_true] at h
            have hs := parseArgument_shorter hd (hb h.1) h.2 step
            rw [length_append] at hs
            omega
          · exact Nat.zero_le _
        rcases takes_or_hollow d word with hno | hno
        · simpa [hno] using hone (hollow d word) .inr
        · simpa [hno] using hone (takes d word) .inl
      have hk := parseArgument_kept hd hw step
      have htk : places (takes d) (taken ++ rest') = places (takes d) rest' :=
        places_taken (fun _ => takes_loose) hl
      have hhl : places (hollow d) (taken ++ rest') = places (hollow d) rest' :=
        places_taken (fun _ => hollow_loose) hl
      rw [places,places,htk,hhl,loose_cons,loose_taken hl,if_pos hw]
      omega

theorem hollow_of_splits (hr : Run d words .empty u) (h : Splits d words u pieces) :
    places (hollow d) words = 0 := by
  have hrn := run_kept hd hr
  have hs := pieces_loose h.fits
  rw [h.whole,h.subcommand,h.arguments,← kept] at hs
  have he : kept .empty = 0 := rfl
  omega

end

theorem bend_of_not_straight (h : ¬ Straight d words) :
    ∃ before word rest,words = before ++ word :: rest ∧ bends d word rest = true := by
  induction words with
  | nil => exact absurd trivial h
  | cons word rest ih =>
    by_cases hb : bends d word rest = true
    · exact ⟨[],word,rest,rfl,hb⟩
    · obtain ⟨before,word',rest',hr,hb'⟩ := ih (fun hs => h ⟨by simpa using hb,hs⟩)
      exact ⟨word :: before,word',rest',by rw [hr]; rfl,hb'⟩

theorem bends_dash (h : bends d word rest = true) : possibleOption word = true := by
  unfold bends at h
  split at h
  · rfl
  · rfl
  · cases h

theorem run_entered (hd : Usable d) (hr : Run d (word :: rest) st u) :
    ∃ st' rest',parseArgument d word rest st = .ok (st',rest') ∧ ∀ e ∈ st'.options,e ∈ u.options := by
  cases hr with
  | @turn _ _ _ st' rest' _ step more =>
    obtain ⟨⟨new,hn,_⟩,_⟩ := options_of_run hd more
    exact ⟨st',rest',step,fun e he => hn ▸ mem_append_left new he⟩

theorem processGroup_middle (hd : Usable d) (ht : takeable rest = true)
    (hl : letters.dropLast.any (fun letter => wants d (findLongOptionFromShort d letter)) = true)
    (h : processGroup d letters rest st = .ok (st',rest')) :
    ∃ letter ∈ letters.dropLast,∃ value,(findLongOptionFromShort d letter,true,value) ∈
    st'.options := by
  induction letters generalizing rest st with
  | nil => cases hl
  | cons letter letters ih =>
    obtain ⟨o,found,value,rest1,ho,htk,hmr⟩ := processGroup_cons hd h
    obtain _ | ⟨letter',letters⟩ := letters
    · cases hl
    obtain ⟨new,hn,_⟩ := (processGroup_adds hd hmr).entered
    cases htk with
    | attached has value => exact absurd (valueOf_plain (letter_plain hd)) value
    | bare has plain =>
      have hno : wants d (findLongOptionFromShort d letter) = false := by
        simp [wants,ho,OptionDef.hasArgument,has]
      rw [dropLast_cons_cons,any_cons,hno,Bool.false_or] at hl
      obtain ⟨l,hm,hv⟩ := ih ht hl hmr
      exact ⟨l,.tail _ hm,hv⟩
    | separate has empty next loose =>
      refine ⟨letter,mem_cons_self,value,?_⟩
      rw [hn]
      simp
    | default has optional empty next =>
      rw [ht] at next
      cases next

theorem single_none (h : single d name none = some new) : ∃ value,(name,false,value) ∈ new := by
  unfold single at h
  split at h
  · cases h
  split at h
  · cases h
    exact ⟨[],mem_singleton_self _⟩
  · cases h
  · rename_i hn
    cases hn
  · split at h
    · cases h
    · cases h
      exact ⟨_,mem_singleton_self _⟩

theorem group_middle (h : group d letters separate = some new) (hm : letter ∈ letters.dropLast) :
    ∃ value,(findLongOptionFromShort d letter,false,value) ∈ new := by
  induction letters generalizing new with
  | nil => cases hm
  | cons letter' letters ih =>
    obtain _ | ⟨letter'',letters⟩ := letters
    · cases hm
    obtain ⟨one,ho,hmr⟩ := bind_eq_some_iff.mp h
    obtain ⟨more,hg,he⟩ := bind_eq_some_iff.mp hmr
    cases he
    rcases mem_cons.mp hm with rfl | hm
    · obtain ⟨value,hv⟩ := single_none ho
      exact ⟨value,mem_append_left _ hv⟩
    · obtain ⟨value,hv⟩ := ih hg hm
      exact ⟨value,mem_append_right _ hv⟩

theorem straight_of_splits (hd : Usable d) (hr : Run d words .empty u)
    (h : Splits d words u pieces) : Straight d words := by
  by_contra hs
  obtain ⟨before,word,rest,hwr,hb⟩ := bend_of_not_straight hs
  have hw := bends_dash hb
  obtain ⟨st1,hr1⟩ := run_reaches hd hw hr hwr
  obtain ⟨st',rest',hsp,hin⟩ := run_entered hd hr1
  obtain ⟨separate,new,hn,hnw⟩ := splits_entered h (by rw [hwr]; simp) hw
  rcases possibleOption_cases hw with ⟨option,rfl⟩ | ⟨letters,rfl,hl⟩
  · simp only [bends,Bool.and_eq_true,List.isEmpty_iff] at hb
    obtain ⟨⟨hc,hv⟩,ha⟩ := hb
    obtain ⟨o,found,value,ho,_,hst,htk⟩ := processLongOption_took hsp
    rw [ho,any_some] at ha
    obtain ⟨a,has,hdf⟩ := (any_eq_true _ _).mp ha
    cases ht : takeable rest with
    | true =>
      have hh : hollow d ('-' :: '-' :: option) = true := by
        simp only [hollow,hc,hv,isEmpty_nil,wants,ho,any_some,OptionDef.hasArgument,has,isSome_some,
          Bool.and_self]
      have hp : 0 < places (hollow d) (before ++ ('-' :: '-' :: option) :: rest) := places_pos hh ht
      rw [← hwr,hollow_of_splits hd hr h] at hp
      exact lt_irrefl 0 hp
    | false =>
      have hvl : value = a.defaultValue := by
        cases htk with
        | attached _ value => exact absurd hv value
        | bare ha' _ => rw [has] at ha'; cases ha'
        | separate _ _ next loose => simp [next,takeable,loose] at ht
        | default ha' _ _ _ => rw [has] at ha'; cases ha'; rfl
      simp only [named,hc,↓reduceIte] at hn
      split at hn
      · cases hn
        have hsm := splits_same h (hnw _ (mem_singleton_self _)) (hin (nameOf option,found,value)
          (by rw [hst]; simp))
        rw [hv,hvl] at hsm
        rw [ht,Bool.false_or,← hsm.2] at hdf
        cases hdf
      · cases hn
  · rw [bends_group hl,and_eq_true] at hb
    rw [parseArgument_group hl] at hsp
    rw [named_group hl] at hn
    obtain ⟨letter,hm,value,htk⟩ := processGroup_middle hd hb.1 hb.2 hsp
    obtain ⟨value',hmn⟩ := group_middle hn hm
    exact absurd (splits_same h (hin _ htk) (hnw _ hmn)).1 (by decide)

def asks (d : Definitions) (words : List Word) : List Word := words.flatMap (asked d)

/-- Nothing but `--help` or `--version`, with a subcommand at most. -/
def OnlyAsks (d : Definitions) (words : List Word) : Prop :=
  (asks d words = [commonOptHelpName] ∨ asks d words = [commonOptVersionName]) ∧
    loose words ≤ if d.subcommands.isEmpty then 0 else 1
deriving Decidable

theorem refused_iff (hd : Usable d) (ht : words.length ≤ turns) :
    Refused d words st ↔ ∃ exit,parseArguments d turns words st = .error exit := by
  induction turns generalizing words st with
  | zero =>
    obtain rfl := length_eq_zero_iff.mp (Nat.le_zero.mp ht)
    exact ⟨nofun,nofun⟩
  | succ turns ih =>
    obtain _ | ⟨word,rest⟩ := words
    · exact ⟨nofun,nofun⟩
    rw [parseArguments]
    cases hp : parseArgument d word rest st with
    | error exit => exact ⟨fun _ => ⟨exit,rfl⟩,fun _ => .here hp⟩
    | ok r =>
      obtain ⟨taken,htk,_⟩ := taken_of_parse hd hp
      have hl := congrArg length htk
      rw [length_append] at hl
      rw [length_cons] at ht
      refine Iff.trans ⟨?_,.later hp⟩ (ih (by omega))
      intro h
      cases h with
      | here he => cases hp.symm.trans he
      | later hs hm =>
        cases hp.symm.trans hs
        exact hm

def HelpAlone (d : Definitions) (words : List Word) : Prop :=
  commonOptHelpName ∈ asks d words → OnlyAsks d words

theorem took_plain (h : Took o option rest found value rest') (ho : d.findOption name = some o)
    (hn : wants d name = false) : rest' = rest := by
  cases h with
  | attached has value | bare has plain => rfl
  | separate has empty next loose => simp [wants,ho,OptionDef.hasArgument,has] at hn
  | default has optional empty next => rfl

section
variable (hd : Usable d)
include hd

theorem processGroup_plain (hn : ∀ letter ∈ letters,wants d (findLongOptionFromShort d letter) = false)
    (h : processGroup d letters rest st = .ok (st',rest')) : rest' = rest := by
  induction letters generalizing rest st with
  | nil =>
    cases h
    rfl
  | cons letter letters ih =>
    obtain ⟨o,found,value,rest1,ho,ht,hm⟩ := processGroup_cons hd h
    obtain ⟨hl,hn⟩ := forall_mem_cons.mp hn
    rw [ih hn hm,took_plain ht ho hl]

theorem parseArgument_plain (hw : possibleOption word = true)
    (hn : ∀ name ∈ asked d word,wants d name = false)
    (h : parseArgument d word rest st = .ok (st',rest')) : rest' = rest := by
  rcases possibleOption_cases hw with ⟨option,rfl⟩ | ⟨letters,rfl,hl⟩
  · obtain ⟨o,found,value,ho,_,_,ht⟩ := processLongOption_took h
    exact took_plain ht ho (hn _ (mem_singleton_self _))
  · rw [parseArgument_group hl] at h
    rw [asked_group hl] at hn
    exact processGroup_plain hd (fun letter hm => hn _ (mem_map_of_mem hm)) h

theorem run_plain (hr : Run d words st u) (hn : ∀ name ∈ asks d words,wants d name = false) :
    kept u = kept st + loose words := by
  induction hr with
  | done => rfl
  | @turn word rest st st' rest' u step more ih =>
    have hrs : rest' = rest := by
      cases hw : possibleOption word with
      | false => exact (parseArgument_loose hw step).1
      | true => exact parseArgument_plain hd hw (fun name hm => hn name (by simp [asks,hm])) step
    subst hrs
    have ih := ih (fun name hm => hn name (by exact mem_append_right _ hm))
    cases hw : possibleOption word with
    | false =>
      rw [ih,(parseArgument_kept_loose hd hw step).2,loose_cons,hw]
      exact Nat.add_assoc _ _ _
    | true => rw [ih,parseArgument_kept hd hw step,loose_cons,if_pos hw,Nat.zero_add]

theorem run_given (hr : Run d words st u) (hs : d.subcommands = []) : given u = given st := by
  induction hr with
  | done => rfl
  | @turn word rest st st' rest' u step more ih =>
    rw [ih]
    cases hw : possibleOption word with
    | false =>
      obtain ⟨_,⟨hne,_⟩ | ⟨_,rfl⟩⟩ := parseArgument_loose hw step
      · exact absurd hs hne
      · rfl
    | true =>
      obtain ⟨new,rfl,_⟩ := (parseArgument_adds hd hw step).entered
      rfl

theorem asks_of_run (hr : Run d words .empty u) : u.options.map Prod.fst = asks d words := by
  obtain ⟨⟨new,hnw,hn⟩,_⟩ := options_of_run hd hr
  rw [hnw,map_append,hn]
  rfl

theorem named_iff (hr : Run d words .empty u) :
    u.options.any (fun o => o.1 == name) = true ↔ name ∈ asks d words := by
  rw [← asks_of_run hd hr]
  simp

theorem onlyAsks_of_alone (hr : Run d words .empty u)
    (hv : commonOptVersionName ∈ asks d words) (har : u.arguments.length = 0)
    (hon : u.options.length = 1) :
    OnlyAsks d words := by
  have ha : asks d words = [commonOptVersionName] := by
    have hl : (asks d words).length = 1 := by rw [← asks_of_run hd hr,length_map,hon]
    obtain ⟨name,hn⟩ := length_eq_one_iff.mp hl
    rw [hn,mem_singleton] at hv
    rw [hn,hv]
  refine ⟨.inr ha,?_⟩
  have hp : wants d commonOptVersionName = false := by
    obtain ⟨o,ho,hnn⟩ := hd.version
    simp [wants,ho,OptionDef.hasArgument,hnn]
  have hk := run_plain hd hr (by
    rw [ha]
    simpa using hp)
  have he : kept .empty = 0 := rfl
  rw [he,Nat.zero_add,kept,har,Nat.add_zero] at hk
  rw [← hk]
  split_ifs with hs
  · rw [run_given hd hr (isEmpty_iff.mp hs)]
    exact le_rfl
  · unfold given
    split
    · exact Nat.zero_le 1
    · exact le_rfl

end

theorem conclude_parsed : (conclude d general st).parsed = some st := by
  unfold conclude
  dsimp only
  repeat' split
  all_goals rfl

theorem conclude_help (h : st.options.any (fun o => o.1 == commonOptHelpName) = true)
    (general : Bool) : (conclude d general st).parseError = false := by
  unfold conclude
  rw [if_pos h]
  split
  · rfl
  · rfl

theorem conclude_false (hh : ¬ st.options.any (fun o => o.1 == commonOptHelpName) = true)
    (h : (conclude d general st).returned = false) :
    (conclude d general st).parseError = true ∨
      st.options.any (fun o => o.1 == commonOptVersionName) = true ∧
        st.arguments.length = 0 ∧ st.options.length = 1 := by
  unfold conclude at h ⊢
  rw [if_neg hh] at h ⊢
  split
  · rename_i hv
    split_ifs with ha
    · rw [and_eq_true,beq_iff_eq,beq_iff_eq] at ha
      exact .inr ⟨hv,ha⟩
    · exact .inl rfl
  left
  repeat' split
  all_goals first
    | rfl
    | simp_all

/-- An accepted command line splits into its words' roles exactly if no word bends; one that is
refused says so. -/
theorem words_used_once_iff (h : exec add constructed calls = some d) (general : Bool)
    (words : List Word) :
    ((parse d general words).returned = true → ∃ st,(parse d general words).parsed = some st ∧
      ((∃ pieces,Splits d words st pieces) ↔ Straight d words)) ∧
    ((parse d general words).returned = false →
      ((parse d general words).parseError = true ∨ OnlyAsks d words ↔
        Refused d words .empty ∨ HelpAlone d words)) := by
  have hd := usable_of_calls h
  cases hp : parseArguments d words.length words .empty with
  | error exit =>
    simp only [parse,hp]
    exact ⟨nofun,fun _ => ⟨fun _ => .inl ((refused_iff hd le_rfl).mpr ⟨exit,hp⟩),fun _ =>
      .inl trivial⟩⟩
  | ok st =>
    have hr := run_of_parse hd le_rfl hp
    have hk : ¬ Refused d words .empty := by simp [refused_iff hd le_rfl,hp]
    simp only [parse,hp]
    refine ⟨fun _ => ⟨st,conclude_parsed,?_⟩,fun hf => ?_⟩
    · exact ⟨fun ⟨pieces,hs⟩ => straight_of_splits hd hr hs,splits_of_straight hd hr⟩
    by_cases hh : commonOptHelpName ∈ asks d words
    · have her := conclude_help (d := d) ((named_iff hd hr).mpr hh) general
      simp [her,hk,HelpAlone,hh]
    · refine ⟨fun _ => .inr (fun hno => absurd hno hh),fun _ => ?_⟩
      rcases conclude_false (fun hn => hh ((named_iff hd hr).mp hn)) hf with he | ⟨hv,ha,ho⟩
      · exact .inl he
      · exact .inr (onlyAsks_of_alone hd hr ((named_iff hd hr).mp hv) ha ho)

def tool : Definitions :=
  ⟨[],constructed.options ++
    [⟨"switch".toList,some 's',none⟩,⟨"verbose".toList,some 'v',none⟩,
      ⟨"target".toList,some 't',
        some ⟨"file".toList,.eOptionArgument,false,"/dev/null".toList,none⟩⟩],[]⟩

def toolCalls : List Call :=
  [.option "switch".toList ["Help".toList] (some 's') false [] [] [] none,
   .option "verbose".toList ["Help".toList] (some 'v') false [] [] [] none,
   .option "target".toList ["Help".toList] (some 't') false "file".toList ["Help".toList]
   "/dev/null".toList none]

/-- With the option last in its group the file is its argument and the word behind it a positional
one. -/
theorem last_letter_takes_word :
    (parse tool true ["-svt".toList,"myFile".toList,"other".toList]).returned = true ∧
    ∃ st,(parse tool true ["-svt".toList,"myFile".toList,"other".toList]).parsed = some st ∧
      ∃ pieces,Splits tool ["-svt".toList,"myFile".toList,"other".toList] st pieces := by
  have hr : (parse tool true ["-svt".toList,"myFile".toList,"other".toList]).returned =
    true := by decide
  have hc : exec add constructed toolCalls = some tool := rfl
  obtain ⟨st,hst,hs⟩ := (words_used_once_iff hc true ["-svt".toList,"myFile".toList,
    "other".toList]).1 hr
  exact ⟨hr,st,hst,hs.mpr (by decide)⟩

/-- The file goes to a letter that is not the last, and `--help` with another option is no error. -/
theorem middle_letter_takes_word :
    exec add constructed toolCalls = some tool ∧
    (parse tool true ["-stv".toList,"myFile".toList]).returned = true ∧
    (parse tool true ["-stv".toList,"myFile".toList]).parsed = some ⟨[],[],
      [("switch".toList,false,[]),("target".toList,true,"myFile".toList),
      ("verbose".toList,false,[])]⟩ ∧
    (¬ ∃ pieces,Splits tool ["-stv".toList,"myFile".toList] ⟨[],[],
      [("switch".toList,false,[]),("target".toList,true,"myFile".toList),
      ("verbose".toList,false,[])]⟩ pieces) ∧
    (parse tool true ["--help".toList,"--verbose".toList]).returned = false ∧
    (parse tool true ["--help".toList,"--verbose".toList]).parseError = false ∧
    ¬ OnlyAsks tool ["--help".toList,"--verbose".toList] := by
  have hc : exec add constructed toolCalls = some tool := rfl
  refine ⟨hc,by decide,by decide,?_,by decide,by decide,by decide⟩
  rintro ⟨pieces,hs⟩
  have hp : parseArguments tool 2 ["-stv".toList,"myFile".toList] .empty = .ok ⟨[],[],
      [("switch".toList,false,[]),("target".toList,true,"myFile".toList),
      ("verbose".toList,false,[])]⟩ := by rfl
  have hr := run_of_parse (usable_of_calls hc) (Nat.le_refl 2) hp
  exact absurd (straight_of_splits (usable_of_calls hc) hr hs) (by decide)

end Mpss.Proofs.CommandLine
