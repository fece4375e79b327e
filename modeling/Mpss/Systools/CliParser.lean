import Mathlib.Data.List.Basic

namespace Mpss.Systools.CliParser

abbrev Word := List Char

inductive ParserErrorCode
  | eParserHelpError
  | eParserVersionError
  | eParserToolPosShortError
  | eParserToolPosLongError
  | eParserSubPosShortError
  | eParserSubPosLongError
  | eParserInvalidArgumentSubError
  | eParserInvalidArgumentToolError
  | eParserNotSubcommandError
  | eParserUnknownShortOptionError
  | eParserUnknownLongOptionError
  | eParserUnexpectedOptionArgError
  | eParserShortOptionGroupError
  | eParserMissingOptionArgError
  | eParserInvalidOptionArgError
  | eParserMissingSubcommandError
  | eParserDuplicatedOptionsError
deriving DecidableEq,Repr

/-- What `parse` catches: a `CliParserExitException`, or an `out_of_range` from a callback. -/
inductive Exit
  | exitApplication (errorCode : ParserErrorCode) (msg optionContext subcommandContext : Word)
  | outOfRange
deriving DecidableEq,Repr

inductive EvaluateArgumentType
  | eOptionArgument
  | ePositionalArgument
deriving DecidableEq,Repr

/-- `checkArgumentValue` for a type, an argument's name, its option or subcommand and the value; no
result stands for `out_of_range`. -/
abbrev Callback := EvaluateArgumentType → Word → Word → Word → Option Bool

structure ArgumentDef where
  name : Word
  argumentType : EvaluateArgumentType
  required : Bool
  defaultValue : Word
  callback : Option Callback

def ArgumentDef.checkArgumentValue (a : ArgumentDef) (value owner : Word) : Except Exit Bool :=
  match a.callback with
  | none => .ok true
  | some callback =>
    match callback a.argumentType a.name owner value with
    | some valid => .ok valid
    | none => .error .outOfRange

/-- An option without a short letter has the letter 0 in the source. -/
structure OptionDef where
  optionName : Word
  shortName : Option Char
  argumentDef : Option ArgumentDef

def OptionDef.hasArgument (o : OptionDef) : Bool := o.argumentDef.isSome

def OptionDef.argumentRequired (o : OptionDef) : Bool := o.argumentDef.any (·.required)

def OptionDef.checkArgumentValue (o : OptionDef) (value : Word) : Except Exit Bool :=
  match o.argumentDef with
  | some a => a.checkArgumentValue value o.optionName
  | none => .ok false

structure SubcommandDef where
  subcommandName : Word
  positionArguments : List ArgumentDef

/-- What the tool has told the parser before it calls `parse`. -/
structure Definitions where
  toolPositional : List ArgumentDef
  options : List OptionDef
  subcommands : List SubcommandDef

def whiteSpace : List Char := ['\n','\r',Char.ofNat 12,Char.ofNat 11,'\t',' ']

def trim (str : Word) : Word :=
  ((str.dropWhile whiteSpace.contains).reverse.dropWhile whiteSpace.contains).reverse

def verifyCanonicalName (name : Word) : Bool :=
  !name.isEmpty && name.all (fun ch => ch.isAlphanum || ch == '-' || ch == '_') &&
    !name.head?.any (fun ch => ch == '-' || ch.isDigit)

def helpGiven (help : List Word) : Bool := help.head?.any (fun para => !(trim para).isEmpty)

/-- The constructor of `ArgumentDef`; it throws where `NameHelp` does. -/
def argumentDef (name : Word) (argumentType : EvaluateArgumentType) (help : List Word)
    (required : Bool) (defVal : Word) (callback : Option Callback) : Option ArgumentDef :=
  if verifyCanonicalName (trim name) && helpGiven help then
    some ⟨trim name,argumentType,required,trim defVal,callback⟩
  else none

def optionDef (name : Word) (shortLetter : Option Char) (requiredArgument : Bool) (argumentName : Word)
    (argumentHelp : List Word) (defVal : Word) (callback : Option Callback) : Option OptionDef :=
  if !(trim argumentName).isEmpty then
    (argumentDef (trim argumentName) .eOptionArgument argumentHelp requiredArgument
      defVal callback).map
      (fun a => ⟨name,shortLetter,some a⟩)
  else if requiredArgument then none
  else some ⟨name,shortLetter,none⟩

/-- The names that `addOption` and `addSubcommand` accept. -/
def usableName (name : Word) : Bool := verifyCanonicalName name && name.head? != some '_'

variable (d : Definitions)

def addOption (name : Word) (help : List Word) (shortLetter : Option Char)
    (requiredArgument : Bool) (argumentName : Word) (argumentHelp : List Word) (defVal : Word)
    (callback : Option Callback) : Option Definitions :=
  if !usableName (trim name) then none
  else if (trim name).length < 2 then none
  else if shortLetter.any (fun ch => !ch.isAlphanum) then none
  else if d.options.any (fun o => o.optionName == trim name ||
      shortLetter.isSome && o.shortName == shortLetter) then none
  else if !helpGiven help then none
  else (optionDef (trim name) shortLetter requiredArgument argumentName argumentHelp
    defVal callback).map
    (fun o => { d with options := d.options ++ [o] })

def addToolPositionalArg (name : Word) (help : List Word) (callback : Option Callback) :
    Option Definitions :=
  if !d.subcommands.isEmpty then none
  else if !helpGiven help then none
  else if d.toolPositional.any (fun a => a.name == trim name) then none
  else (argumentDef name .ePositionalArgument help true [] callback).map
    (fun a => { d with toolPositional := d.toolPositional ++ [a] })

def addSubcommand (subcommand : Word) (help : List Word) : Option Definitions :=
  if !d.toolPositional.isEmpty then none
  else if !usableName (trim subcommand) then none
  else if !helpGiven help then none
  else if d.subcommands.any (fun s => s.subcommandName == trim subcommand) then none
  else some { d with subcommands := d.subcommands ++ [⟨trim subcommand,[]⟩] }

def Definitions.findSubcommand (name : Word) : Option SubcommandDef :=
  d.subcommands.find? (fun s => s.subcommandName == name)

def addSubcommandPositionalArg (subcommandName argName : Word) (help : List Word)
    (callback : Option Callback) : Option Definitions :=
  match d.findSubcommand (trim subcommandName) with
  | none => none
  | some found =>
    if !usableName (trim argName) then none
    else if !helpGiven help then none
    else if found.positionArguments.any (fun a => a.name == trim argName) then none
    else (argumentDef (trim argName) .ePositionalArgument help true [] callback).map
      (fun a => { d with subcommands := d.subcommands.map (fun s =>
        if s.subcommandName == trim subcommandName then
          { s with positionArguments := s.positionArguments ++ [a] }
        else s) })

def commonOptHelpName : Word := "help".toList

def commonOptVersionName : Word := "version".toList

/-- The constructor of the parser adds `--help` and `--version`. -/
def constructed : Definitions :=
  ⟨[],[⟨commonOptHelpName,some 'h',none⟩,⟨commonOptVersionName,none,none⟩],[]⟩

inductive Call
  | option (name : Word) (help : List Word) (shortLetter : Option Char) (requiredArgument : Bool)
      (argumentName : Word) (argumentHelp : List Word) (defVal : Word) (callback : Option Callback)
  | toolPositionalArg (name : Word) (help : List Word) (callback : Option Callback)
  | subcommand (name : Word) (help : List Word)
  | subcommandPositionalArg (subcommandName argName : Word) (help : List Word) (callback : Option Callback)

/-- A call of the interface; no result stands for an API exception. -/
def add : Call → Option Definitions
  | .option name help shortLetter requiredArgument argumentName argumentHelp defVal callback =>
    addOption d name help shortLetter requiredArgument argumentName argumentHelp defVal callback
  | .toolPositionalArg name help callback => addToolPositionalArg d name help callback
  | .subcommand name help => addSubcommand d name help
  | .subcommandPositionalArg subcommandName argName help callback =>
    addSubcommandPositionalArg d subcommandName argName help callback

/-- The fields `parse` fills in. An entry of `options` is a name with `foundArgument` and the value,
in the order they were made. -/
structure Parsed where
  subcommand : Word
  arguments : List Word
  options : List (Word × Bool × Word)
deriving DecidableEq,Repr

def Parsed.empty : Parsed := ⟨[],[],[]⟩

def exitApplication (errorCode : ParserErrorCode)
    (msg optionContext subcommandContext : Word) : Except Exit α :=
  .error (.exitApplication errorCode msg optionContext subcommandContext)

def quoted (lead : String) (word : Word) : Word := lead.toList ++ '\'' :: word ++ ['\'']

def Definitions.findOption (name : Word) : Option OptionDef :=
  d.options.find? (fun o => o.optionName == name)

/-- The letter of an option is its own, so the order of the definitions does not matter. -/
def findLongOptionFromShort (shortOption : Char) : Word :=
  match d.options.find? (fun o => o.shortName == some shortOption) with
  | some o => o.optionName
  | none => []

/-- The word starts with a dash (`find(SHORT_SEP) == 0`; one that starts with two does as well). -/
def possibleOption (word : Word) : Bool := word.head? == some '-'

variable (option : Word)

/-- `optionPair.first`: the text up to `=`, or all of it. -/
def nameOf : Word := option.takeWhile (· != '=')

/-- `optionPair.second`: the text behind `=`, empty where there is none. -/
def valueOf : Word := (option.dropWhile (· != '=')).drop 1

variable (optDef : OptionDef)

/-- `processLongOption` for an option whose value is empty so far: the value, whether an argument
was found, and the words left. -/
def unattached (name : Word) (foundArgument : Bool) (rest : List Word) :
    Except Exit (Word × Bool × List Word) :=
  match optDef.argumentDef with
  | none => .ok ([],foundArgument,rest)
  | some argument =>
    if argument.required then
      match rest with
      | [] => exitApplication .eParserMissingOptionArgError (quoted ": " name) name []
      | nextArg :: after =>
        if possibleOption nextArg then
          exitApplication .eParserMissingOptionArgError (quoted ": " name) name []
        else .ok (nextArg,true,after)
    else
      match rest with
      | [] => .ok (argument.defaultValue,foundArgument,[])
      | nextArg :: after =>
        if possibleOption nextArg then .ok (argument.defaultValue,foundArgument,rest)
        else .ok (nextArg,true,after)

def optionValue (option : Word) (rest : List Word) : Except Exit (Word × Bool × List Word) :=
  if (valueOf option).isEmpty then unattached optDef (nameOf option) (option.contains '=') rest
  else .ok (valueOf option,option.contains '=',rest)

def validate (name value : Word) (foundArgument : Bool) : Except Exit Unit :=
  if optDef.hasArgument && foundArgument then do
    let valid ← optDef.checkArgumentValue value
    if valid then pure ()
    else exitApplication .eParserInvalidOptionArgError (quoted ": " value) name []
  else pure ()

/-- `rest` are the words behind `argIterator`. The last test, for an option that is there already,
cannot succeed: a duplicate is refused before. -/
def processLongOption (disallowArgument : Bool) (rest : List Word)
    (st : Parsed) : Except Exit (Parsed × List Word) :=
  if st.options.any (fun o => o.1 == nameOf option) then
    exitApplication .eParserDuplicatedOptionsError (quoted ": " (nameOf option)) [] []
  else
    match d.findOption (nameOf option) with
    | none => exitApplication .eParserUnknownLongOptionError (quoted ": " (nameOf option)) [] []
    | some optDef =>
      if option.contains '=' && !optDef.hasArgument then
        exitApplication .eParserUnexpectedOptionArgError
          (": option='--".toList ++ nameOf option ++ quoted "', argument=" (valueOf option))
          (nameOf option) []
      else if disallowArgument && optDef.argumentRequired then
        exitApplication .eParserShortOptionGroupError (quoted ": " optDef.shortName.toList)
          (nameOf option) []
      else do
        let (value,foundArgument,rest) ← optionValue optDef option rest
        validate optDef (nameOf option) value foundArgument
        pure ({ st with options := st.options ++ [(nameOf option,foundArgument,value)] },rest)

/-- The letters of a group of short options. -/
def processGroup : List Char → List Word → Parsed → Except Exit (Parsed × List Word)
  | [],rest,st => .ok (st,rest)
  | letter :: letters,rest,st =>
    if (findLongOptionFromShort d letter).isEmpty then
      exitApplication .eParserUnknownShortOptionError (quoted " " [letter]) [] []
    else do
      let (st,rest) ← processLongOption d (findLongOptionFromShort d letter) (!letters.isEmpty) rest st
      processGroup letters rest st

/-- The subcommand has been looked up when it was stored. -/
def processPositionalArgument (arg : Word) (st : Parsed) : Except Exit Parsed :=
  if !st.subcommand.isEmpty then
    let positional := (d.findSubcommand st.subcommand).elim [] (·.positionArguments)
    match positional.drop st.arguments.length with
    | argumentDef :: _ => do
      let valid ← argumentDef.checkArgumentValue arg st.subcommand
      if valid then pure { st with arguments := st.arguments ++ [arg] }
      else
        exitApplication .eParserInvalidArgumentSubError
          (quoted ": argument=" arg ++ quoted ", subcommand=" st.subcommand) [] st.subcommand
    | [] =>
      if positional.isEmpty then pure { st with arguments := st.arguments ++ [arg] }
      else exitApplication .eParserSubPosLongError (quoted ": " st.subcommand) [] st.subcommand
  else if !d.toolPositional.isEmpty then
    match d.toolPositional.drop st.arguments.length with
    | argumentDef :: _ => do
      let valid ← argumentDef.checkArgumentValue arg []
      if valid then pure { st with arguments := st.arguments ++ [arg] }
      else exitApplication .eParserInvalidArgumentToolError (quoted ": " arg) [] st.subcommand
    | [] => exitApplication .eParserToolPosLongError [] [] st.subcommand
  else pure { st with arguments := st.arguments ++ [arg] }

/-- The word under `argIterator`, with the words behind it: the state and the words still to be
parsed. -/
def parseArgument (arg : Word) (rest : List Word) (st : Parsed) : Except Exit (Parsed × List Word) :=
  match arg with
  | '-' :: '-' :: option => processLongOption d option false rest st
  | '-' :: letters => processGroup d letters rest st
  | arg =>
    if !d.subcommands.isEmpty && st.subcommand.isEmpty then
      if (d.findSubcommand arg).isSome then .ok ({ st with subcommand := arg },rest)
      else exitApplication .eParserNotSubcommandError [] [] []
    else do
      let st ← processPositionalArgument d arg st
      pure (st,rest)

/-- The loop of `parse`. Every turn passes one word at least, so as many turns as there are words
do. -/
def parseArguments : Nat → List Word → Parsed → Except Exit Parsed
  | turns + 1,arg :: rest,st => do
    let (st,rest) ← parseArgument d arg rest st
    parseArguments turns rest st
  | _,_,st => .ok st

/-- What `parse` leaves behind. `reported` is the error that was printed; the fields are followed
only where no exception was caught. -/
structure Outcome where
  returned : Bool
  parseError : Bool
  reported : Option ParserErrorCode
  parsed : Option Parsed
deriving DecidableEq,Repr

def conclude (allowGeneralArguments : Bool) (st : Parsed) : Outcome :=
  let named (name : Word) := st.options.any (fun o => o.1 == name)
  let alone := st.arguments.length == 0 && st.options.length == 1
  let positional := (d.findSubcommand st.subcommand).elim 0 (·.positionArguments.length)
  if named commonOptHelpName then
    if alone then ⟨false,false,none,some st⟩
    else ⟨false,false,some .eParserHelpError,some st⟩
  else if named commonOptVersionName then
    if alone then ⟨false,false,none,some st⟩
    else ⟨false,true,some .eParserVersionError,some st⟩
  else if d.toolPositional.length != 0 && st.arguments.length != d.toolPositional.length then
    ⟨false,true,some .eParserToolPosShortError,some st⟩
  else if d.subcommands.length > 0 && !st.subcommand.isEmpty && st.arguments.length < positional then
    ⟨false,true,some .eParserSubPosShortError,some st⟩
  else if d.subcommands.length > 0 && !st.subcommand.isEmpty &&
      !allowGeneralArguments && st.arguments.length > positional then
    ⟨false,true,some .eParserSubPosLongError,some st⟩
  else if d.subcommands.length > 0 && st.subcommand.isEmpty then
    ⟨false,true,some .eParserMissingSubcommandError,some st⟩
  else ⟨true,false,none,some st⟩

def Exit.reported : Exit → ParserErrorCode
  | .exitApplication errorCode _ _ _ => errorCode
  | .outOfRange => .eParserInvalidArgumentSubError

def parse (allowGeneralArguments : Bool) (words : List Word) : Outcome :=
  match parseArguments d words.length words .empty with
  | .ok st => conclude d allowGeneralArguments st
  | .error exit => ⟨false,true,some exit.reported,none⟩

end Mpss.Systools.CliParser
