import Mathlib.Data.List.TakeWhile
import Mpss.Library.Outcomes
import Mpss.Library.Runs
import Mpss.Systools.CliParser

namespace Mpss.Proofs.CommandWords
open List hiding after
open Library.Outcomes Library.Runs Systools.CliParser Option

abbrev Entry := Word × Bool × Word

variable {d : Definitions}

structure Usable (d : Definitions) : Prop where
  plain : ∀ o ∈ d.options,o.optionName ≠ [] ∧ '=' ∉ o.optionName
  subcommands : ∀ s ∈ d.subcommands,s.subcommandName ≠ []
  help : ∃ o,d.findOption commonOptHelpName = some o ∧ o.argumentDef = none
  version : ∃ o,d.findOption commonOptVersionName = some o ∧ o.argumentDef = none

theorem usableName_plain (h : usableName name = true) : name ≠ [] ∧ '=' ∉ name := by
  simp only [usableName,verifyCanonicalName,Bool.and_eq_true,Bool.not_eq_true',isEmpty_eq_false_iff,
    List.all_eq_true] at h
  refine ⟨h.1.1.1,?_⟩
  intro he
  exact absurd (h.1.1.2 '=' he) (by decide)

theorem findOption_append (h : d.findOption name = some o) :
    Definitions.findOption { d with options := d.options ++ more } name = some o := by
  unfold Definitions.findOption at h ⊢
  rw [find?_append,h]
  rfl

theorem optionDef_name (h : optionDef name letter required argumentName help defVal callback = some o) :
    o.optionName = name := by
  unfold optionDef at h
  split at h
  · obtain ⟨a,_,rfl⟩ := map_eq_some_iff.mp h
    rfl
  · split at h
    · cases h
    · cases h
      rfl

theorem usable_addOption (h : Usable d)
    (ha : addOption d name help letter required argumentName argumentHelp defVal callback =
    some d') : Usable d' := by
  obtain ⟨hnm,ha⟩ := ite_none_left_eq_some.mp ha
  split at ha
  · cases ha
  split at ha
  · cases ha
  split at ha
  · cases ha
  split at ha
  · cases ha
  obtain ⟨o,ho,rfl⟩ := map_eq_some_iff.mp ha
  have hpl := usableName_plain (by simpa using hnm)
  refine ⟨?_,h.subcommands,?_,?_⟩
  · intro p hp
    rcases mem_append.mp hp with hp | hp
    · exact h.plain p hp
    · rw [mem_singleton.mp hp,optionDef_name ho]
      exact hpl
  · obtain ⟨p,hp,hn⟩ := h.help
    exact ⟨p,findOption_append hp,hn⟩
  · obtain ⟨p,hp,hn⟩ := h.version
    exact ⟨p,findOption_append hp,hn⟩

theorem usable_add (h : Usable d) (ha : add d call = some d') : Usable d' := by
  cases call with
  | option name help letter required argumentName argumentHelp defVal callback =>
    exact usable_addOption h ha
  | toolPositionalArg name help callback =>
    simp only [add,addToolPositionalArg,ite_none_left_eq_some] at ha
    obtain ⟨a,_,rfl⟩ := map_eq_some_iff.mp ha.2.2.2
    exact { h with }
  | subcommand name help =>
    simp only [add,addSubcommand,ite_none_left_eq_some,some.injEq] at ha
    obtain ⟨_,hn,_,_,rfl⟩ := ha
    refine { h with subcommands := ?_ }
    intro s hs
    rcases mem_append.mp hs with hs | hs
    · exact h.subcommands s hs
    · rw [mem_singleton.mp hs]
      exact (usableName_plain (by simpa using hn)).1
  | subcommandPositionalArg subcommandName argName help callback =>
    simp only [add,addSubcommandPositionalArg] at ha
    split at ha
    · cases ha
    simp only [ite_none_left_eq_some] at ha
    obtain ⟨a,_,rfl⟩ := map_eq_some_iff.mp ha.2.2.2
    refine { h with subcommands := ?_ }
    intro s hs
    obtain ⟨t,ht,rfl⟩ := mem_map.mp hs
    split
    all_goals exact h.subcommands t ht

theorem usable_constructed : Usable constructed :=
  ⟨by decide,by decide,⟨_,rfl,rfl⟩,⟨_,rfl,rfl⟩⟩

theorem usable_of_calls (h : exec add constructed calls = some d) : Usable d := by
  have hf : Along add (fun _ _ => True) constructed calls := Along.always (fun _ _ => trivial) _ _
  exact exec_invariant (fun _ _ _ hu _ ha => usable_add hu ha) usable_constructed hf h

def takeable (rest : List Word) : Bool := rest.head?.any (fun next => !possibleOption next)

theorem nameOf_plain (h : '=' ∉ option) : nameOf option = option := by
  apply takeWhile_eq_self_iff.mpr
  intro ch hch
  have hne : ch ≠ '=' := by
    rintro rfl
    exact h hch
  simpa using hne

theorem valueOf_plain (h : '=' ∉ option) : valueOf option = [] := by
  have hd : option.dropWhile (· != '=') = [] := by
    apply dropWhile_eq_nil_iff.mpr
    intro ch hch
    have hne : ch ≠ '=' := by
      rintro rfl
      exact h hch
    simpa using hne
  simp [valueOf,hd]

/-- Where an option that is accepted has its value from, and the words it leaves. -/
inductive Took (o : OptionDef) (option : Word) (rest : List Word) : Bool → Word → List Word → Prop
  | attached (has : o.argumentDef = some a) (value : valueOf option ≠ []) :
      Took o option rest true (valueOf option) rest
  | bare (has : o.argumentDef = none) (plain : '=' ∉ option) : Took o option rest false [] rest
  | separate (has : o.argumentDef = some a) (value : valueOf option = []) (next : rest = arg ::
      after) (loose : possibleOption arg = false) : Took o option rest true arg after
  | default (has : o.argumentDef = some a) (optional : a.required = false) (value : valueOf option = [])
      (next : takeable rest = false) : Took o option rest (option.contains '=') a.defaultValue rest

theorem unattached_took (hv : valueOf option = [])
    (hf : option.contains '=' = true → o.hasArgument = true)
    (h : unattached o name (option.contains '=') rest = .ok (value,found,rest')) :
    Took o option rest found value rest' := by
  unfold unattached at h
  split at h
  · rename_i hn
    have hc : option.contains '=' = false := by
      by_contra hc
      have hh := hf (by simpa using hc)
      simp [OptionDef.hasArgument,hn] at hh
    rw [hc] at h
    cases h
    exact .bare hn (by simpa using hc)
  · rename_i a ha
    split_ifs at h with ho
    · split at h
      · cases h
      split_ifs at h with hl
      · cases h
      · cases h
        exact .separate ha hv rfl (by simpa using hl)
    split at h
    · cases h
      exact .default ha (by simpa using ho) hv rfl
    split_ifs at h with hd
    · cases h
      exact .default ha (by simpa using ho) hv (by simp [takeable,hd])
    · cases h
      exact .separate ha hv rfl (by simpa using hd)

/-- An option word enters options of these names and takes words that do not look like options. -/
structure Adds (names : List Word) (st : Parsed) (rest : List Word) (st' : Parsed)
    (rest' : List Word) : Prop where
  entered : ∃ new : List Entry,st' = { st with options := st.options ++ new } ∧
    new.map Prod.fst = names
  taken : ∃ taken,rest = taken ++ rest' ∧ ∀ arg ∈ taken,possibleOption arg = false
  once : (st.options.map Prod.fst).Nodup → (st'.options.map Prod.fst).Nodup

theorem Adds.none (st : Parsed) (rest : List Word) : Adds [] st rest st rest :=
  ⟨⟨[],by simp,rfl⟩,⟨[],rfl,by simp⟩,id⟩

theorem Adds.trans (h : Adds names st rest st' rest') (h' : Adds names' st' rest' u left) :
    Adds (names ++ names') st rest u left := by
  obtain ⟨⟨new,hst,hn⟩,⟨taken,hr,ht⟩,ho⟩ := h
  obtain ⟨⟨new',hu,hn'⟩,⟨taken',hr',ht'⟩,ho'⟩ := h'
  refine ⟨⟨new ++ new',?_,?_⟩,⟨taken ++ taken',?_,?_⟩,ho' ∘ ho⟩
  · rw [hu,hst]
    simp
  · rw [map_append,hn,hn']
  · rw [hr,hr',append_assoc]
  · intro arg ha
    exact (mem_append.mp ha).elim (ht arg) (ht' arg)

theorem Took.taken (h : Took o option rest found value rest') :
    ∃ taken,rest = taken ++ rest' ∧ ∀ arg ∈ taken,possibleOption arg = false := by
  cases h with
  | attached has value | bare has plain => exact ⟨[],rfl,by simp⟩
  | separate has empty next loose => exact ⟨[value],next,by simpa using loose⟩
  | default has optional value next => exact ⟨[],rfl,by simp⟩

section
variable (h : processLongOption d option disallow rest st = .ok (st',rest'))
include h

/-- An option that is accepted is defined, is new, and is entered with what it took. -/
theorem processLongOption_took :
    ∃ o found value,d.findOption (nameOf option) = some o ∧ nameOf option ∉ st.options.map Prod.fst
      ∧ st' = { st with options := st.options ++ [(nameOf option,found,value)] } ∧
      Took o option rest found value rest' := by
  unfold processLongOption at h
  split_ifs at h with hnw
  · cases h
  split at h
  · cases h
  rename_i o ho
  split at h
  · cases h
  rename_i hu
  split at h
  · cases h
  simp only [bind_ok] at h
  obtain ⟨⟨value,found,left⟩,ht,_,_,hst⟩ := h
  cases hst
  refine ⟨o,found,value,ho,?_,rfl,?_⟩
  · intro hm
    obtain ⟨e,he,hn⟩ := mem_map.mp hm
    exact hnw (any_eq_true.mpr ⟨e,he,by simpa using hn⟩)
  unfold optionValue at ht
  split_ifs at ht with hem
  · exact unattached_took (by simpa using hem) (by simpa using hu) ht
  cases ht
  have hc : option.contains '=' = true := by
    by_contra hc
    rw [valueOf_plain (by simpa using hc)] at hem
    exact hem rfl
  have hh : o.hasArgument = true := by
    rw [hc] at hu
    simpa using hu
  obtain ⟨a,ha⟩ := isSome_iff_exists.mp hh
  rw [hc]
  exact .attached ha (by simpa using hem)

theorem processLongOption_adds : Adds [nameOf option] st rest st' rest' := by
  obtain ⟨o,found,value,_,hnw,rfl,ht⟩ := processLongOption_took h
  refine ⟨⟨_,rfl,rfl⟩,ht.taken,?_⟩
  intro hn
  simp only [map_append,map_cons,map_nil]
  refine nodup_append.mpr ⟨hn,by simp,?_⟩
  rintro name hnm _ hb rfl
  rw [mem_singleton.mp hb] at hnm
  exact hnw hnm

end

theorem letter_plain (hd : Usable d) : '=' ∉ findLongOptionFromShort d letter := by
  unfold findLongOptionFromShort
  split
  · rename_i o ho
    exact (hd.plain o (mem_of_find?_eq_some ho)).2
  · simp

theorem processGroup_adds (hd : Usable d) (h : processGroup d letters rest st = .ok (st',rest')) :
    Adds (letters.map (findLongOptionFromShort d)) st rest st' rest' := by
  induction letters generalizing rest st with
  | nil =>
    cases h
    exact .none st' rest'
  | cons letter letters ih =>
    unfold processGroup at h
    split at h
    · cases h
    obtain ⟨⟨st1,rest1⟩,ho,hm⟩ := bind_ok.mp h
    have ha := processLongOption_adds ho
    rw [nameOf_plain (letter_plain hd)] at ha
    exact ha.trans (ih hm)

theorem processGroup_cons (hd : Usable d)
    (h : processGroup d (letter :: letters) rest st = .ok (st',rest')) :
    ∃ o found value rest1,d.findOption (findLongOptionFromShort d letter) = some o ∧
      Took o (findLongOptionFromShort d letter) rest found value rest1 ∧
      processGroup d letters rest1
        { st with options := st.options ++ [(findLongOptionFromShort d letter,found,value)] } = .ok
        (st',rest') := by
  unfold processGroup at h
  split at h
  · cases h
  obtain ⟨⟨st1,rest1⟩,hon,hm⟩ := bind_ok.mp h
  obtain ⟨o,found,value,ho,_,rfl,ht⟩ := processLongOption_took hon
  rw [nameOf_plain (letter_plain hd)] at ho hm
  exact ⟨o,found,value,rest1,ho,ht,hm⟩

def asked (d : Definitions) : Word → List Word
  | '-' :: '-' :: option => [nameOf option]
  | '-' :: letters => letters.map (findLongOptionFromShort d)
  | _ => []

theorem possibleOption_cases (h : possibleOption word = true) :
    (∃ option,word = '-' :: '-' :: option) ∨ ∃ letters,word = '-' :: letters ∧
    letters.head? ≠ some '-' := by
  obtain _ | ⟨ch,letters⟩ := word
  · cases h
  obtain rfl : ch = '-' := by simpa [possibleOption] using h
  obtain _ | ⟨ch,option⟩ := letters
  · exact .inr ⟨[],rfl,by simp⟩
  · by_cases hch : ch = '-'
    · exact .inl ⟨option,by rw [hch]⟩
    · exact .inr ⟨ch :: option,rfl,by simpa using hch⟩

theorem no_dash {letters : Word} (h : letters.head? ≠ some '-') (option : Word) :
    letters ≠ '-' :: option := by
  rintro rfl
  exact h rfl

theorem parseArgument_group (h : letters.head? ≠ some '-') :
    parseArgument d ('-' :: letters) rest st = processGroup d letters rest st := by
  rw [parseArgument]
  exact no_dash h

theorem asked_group (h : letters.head? ≠ some '-') :
    asked d ('-' :: letters) = letters.map (findLongOptionFromShort d) := by
  rw [asked]
  exact no_dash h

theorem asked_loose (h : possibleOption word = false) : asked d word = [] := by
  unfold asked
  split
  · cases h
  · cases h
  · rfl

theorem parseArgument_adds (hd : Usable d) (hw : possibleOption word = true)
    (h : parseArgument d word rest st = .ok (st',rest')) : Adds (asked d word) st rest st' rest' := by
  rcases possibleOption_cases hw with ⟨option,rfl⟩ | ⟨letters,rfl,hl⟩
  · exact processLongOption_adds h
  · rw [parseArgument_group hl] at h
    rw [asked_group hl]
    exact processGroup_adds hd h

theorem checked_pushes {check : Except Exit Bool} {exit : Except Exit Parsed}
    (he : ∀ u,exit ≠ .ok u) (h : (do
      let valid ← check
      if valid then pure st' else exit) = .ok u) : u = st' := by
  obtain ⟨valid,_,hv⟩ := bind_ok.mp h
  split at hv
  · cases hv
    rfl
  · exact absurd hv (he u)

theorem processPositionalArgument_pushes (h : processPositionalArgument d word st = .ok u) :
    u = { st with arguments := st.arguments ++ [word] } := by
  unfold processPositionalArgument at h
  split at h
  · dsimp only at h
    split at h
    · exact checked_pushes (fun _ he => by cases he) h
    · split at h
      · cases h
        rfl
      · cases h
  · split at h
    · split at h
      · exact checked_pushes (fun _ he => by cases he) h
      · cases h
    · cases h
      rfl

theorem parseArgument_loose (hw : possibleOption word = false)
    (h : parseArgument d word rest st = .ok (st',rest')) :
    rest' = rest ∧
      (d.subcommands ≠ [] ∧ st.subcommand = [] ∧ (d.findSubcommand word).isSome = true ∧
          st' = { st with subcommand := word } ∨
        (d.subcommands ≠ [] → st.subcommand ≠ []) ∧
          st' = { st with arguments := st.arguments ++ [word] }) := by
  unfold parseArgument at h
  split at h
  · cases hw
  · cases hw
  split at h
  · rename_i hs
    simp only [Bool.and_eq_true,Bool.not_eq_true',isEmpty_eq_false_iff,List.isEmpty_iff] at hs
    split_ifs at h with hf
    · cases h
      exact ⟨rfl,.inl ⟨hs.1,hs.2,hf,rfl⟩⟩
    · cases h
  rename_i hs
  simp only [Bool.and_eq_true,Bool.not_eq_true',isEmpty_eq_false_iff,List.isEmpty_iff,not_and] at hs
  obtain ⟨u,hu,hst⟩ := bind_ok.mp h
  cases hst
  exact ⟨rfl,.inr ⟨hs,processPositionalArgument_pushes hu⟩⟩

end Mpss.Proofs.CommandWords
