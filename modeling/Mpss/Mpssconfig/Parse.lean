import Mpss.Mpssconfig.Miclist

namespace Mpss.Mpssconfig.Parse
open Miclist

/-- The text of a file, which the parser changes in place; a pointer is an index. -/
abbrev Image := List Char

def nul : Char := Char.ofNat 0

def deref (m : Image) (p : Nat) : Char := m.getD p nul

def str (m : Image) (p : Nat) : Name := (m.drop p).takeWhile (· ≠ nul)

def strchr (m : Image) (p : Nat) (c : Char) : Option Nat :=
  if c ∈ str m p then some (p + ((str m p).takeWhile (· ≠ c)).length) else none

def strcasecmp (s t : Name) : Bool := s.map Char.toLower = t.map Char.toLower

def skip (f : Char → Bool) (m : Image) (p : Nat) : Nat := p + ((m.drop p).takeWhile f).length

structure Token where
  name : Name
  minargs : Nat
  maxargs : Nat
deriving DecidableEq

def tokens : List Token :=
  [⟨"Include".toList,1,1⟩,
   ⟨"Version".toList,1,2⟩,
   ⟨"OSimage".toList,0,2⟩,
   ⟨"EFIimage".toList,0,1⟩,
   ⟨"BootOnStart".toList,1,1⟩,
   ⟨"VerboseLogging".toList,1,1⟩,
   ⟨"Hostname".toList,1,1⟩,
   ⟨"Network".toList,2,7⟩,
   ⟨"Bridge".toList,2,6⟩,
   ⟨"MacAddrs".toList,1,2⟩,
   ⟨"ExtraCommandLine".toList,1,1⟩,
   ⟨"Console".toList,1,1⟩,
   ⟨"PowerManagement".toList,1,1⟩,
   ⟨"Base".toList,2,2⟩,
   ⟨"CommonDir".toList,1,2⟩,
   ⟨"MicDir".toList,1,2⟩,
   ⟨"UserAuthentication".toList,1,3⟩,
   ⟨"Overlay".toList,2,4⟩,
   ⟨"K1omRpms".toList,1,1⟩,
   ⟨"RootDevice".toList,1,3⟩,
   ⟨"ShutdownTimeout".toList,1,1⟩,
   ⟨"CrashDump".toList,2,2⟩,
   ⟨"Service".toList,4,4⟩,
   ⟨"Cgroup".toList,1,8⟩,
   ⟨"Family".toList,0,1⟩,
   ⟨"MPSSVersion".toList,0,1⟩]

def maxArgs : Nat := 10

/-- Where the lexer is in a line: `args[0]` to `args[arg - 1]`, and `args[arg]`. -/
structure Lexer where
  image : Image
  before : List Nat
  here : Nat

inductive Turn
  | nextLine
  | doneLexing (s : Lexer) (unclosed : Bool)
  | again (s : Lexer)

/-- What comes behind the `switch`, where `args[arg + 1]` is `q`. -/
def terminate (s : Lexer) (q : Nat) : Turn :=
  let image := s.image.set q nul
  let next := skip (· = ' ') image (q + 1)
  if deref image next = nul then .doneLexing { s with image := image } false
  else .again ⟨image,s.before ++ [s.here],next⟩

/-- The `switch`, once the white space is behind `args[arg]`. -/
def choose (s : Lexer) : Turn :=
  if deref s.image s.here = '#' then
    if s.before = [] then .nextLine else .doneLexing s false
  else if deref s.image s.here = '"' then
    let s := { s with here := s.here + 1 }
    match strchr s.image s.here '"' with
    | none => .doneLexing s true
    | some q => terminate s q
  else if (str s.image s.here).length = 0 then .doneLexing s false
  else
    match (strchr s.image s.here ' ').or (strchr s.image s.here '\t') with
    | none => .doneLexing s false
    | some q => terminate s q

def turn (s : Lexer) : Turn := choose { s with here := skip isSpace s.image s.here }

/-- The loop over the arguments, for `n` more turns; none when the line is left. -/
def lex : Nat → Lexer → Option (Lexer × Bool)
  | 0,s => some (s,false)
  | n + 1,s =>
    match turn s with
    | .nextLine => none
    | .doneLexing s unclosed => some (s,unclosed)
    | .again s => lex n s

inductive Level
  | error
  | warn
  | info
deriving DecidableEq

/-- A message added to `perrs`, or a call of the function of a token. -/
inductive Event
  | perr (level : Level) (text : Name)
  | call (name : Name) (args : List Name) (lineno : Nat)
deriving DecidableEq

/-- The names in the messages, and what the functions of tokens return, depending on the lines
before. -/
structure Context where
  filename : Name
  mic : Name
  func : List (List Event) → Name → List Name → Int

variable (c : Context) (lineno : Nat)

def place : Name :=
  "[Parse] config file ".toList ++ c.filename ++ " line ".toList ++ decimal lineno

def missingQuote : Event :=
  .perr .warn (place c lineno ++ ": Quoted argument missing ending \"".toList)

def invalidCount (lineno arg : Nat) : Event :=
  .perr .error (place c lineno ++ ": invalid argument count ".toList ++ decimal arg)

def invalidParameter (config : Name) : Event :=
  .perr .error (c.mic ++ ": [Parse] ".toList ++ config ++ " invalid config parameter".toList)

def dispatch (config : Name) (args : List Name) : Event :=
  match tokens.find? (fun t => config.length = t.name.length ∧ strcasecmp config t.name) with
  | none => invalidParameter c config
  | some t =>
    if args.length < t.minargs ∨ args.length > t.maxargs then invalidCount c lineno args.length
    else .call t.name args lineno

/-- One line: what it leads to, and the image. -/
def parseLine (image : Image) (config : Nat) : List Event × Image :=
  match lex (maxArgs - 1) ⟨image,[],config⟩ with
  | none => ([],image)
  | some (s,unclosed) =>
    let warning := if unclosed then [missingQuote c lineno] else []
    if s.before.length = 0 ∧ (str s.image config).length = 0 then (warning,s.image)
    else
      let args := (s.before ++ [s.here]).tail.map (str s.image)
      (warning ++ [dispatch c lineno (str s.image config) args],s.image)

def returned (lines : List (List Event)) (events : List Event) : Int :=
  match events.getLast? with
  | some (.call name args _) => c.func lines name args
  | _ => 0

/-- What each line read so far led to, and at the end what `parse_config_file` returns. -/
def parseLines (size : Nat) :
    Nat → Image → Nat → List (List Event) → Option (List (List Event) × Int)
  | 0,_,_,_ => none
  | n + 1,image,config,lines =>
    if config + 1 < size then
      let stop := skip (fun ch => ch ≠ '\n' ∧ ch ≠ nul) image config
      let r := parseLine c (lines.length + 1) (image.set stop nul) config
      if returned c lines r.1 ≠ 0 then some (lines ++ [r.1],returned c lines r.1)
      else parseLines size n r.2 (stop + 1) (lines ++ [r.1])
    else some (lines,0)

/-- What the system says about the file; `error` is the text of `errno`. -/
inductive Source
  | noStat
  | noOpen (error : Name)
  | noMalloc (error : Name)
  | shortRead
  | bytes (text : Name)

structure Outcome where
  valid : Option Bool
  messages : List Event
  lines : List (List Event)
  ret : Int

def EBADF : Int := 9
def ENOMEM : Int := 12
def EEXIST : Int := 17

def parseConfigFile (source : Source) : Option Outcome :=
  match source with
  | .noStat => some ⟨some false,[],[],EEXIST⟩
  | .noOpen error =>
    some ⟨none,[.perr .error ("[Parse FATAL] ".toList ++ c.filename ++ " open fail ".toList ++
      error)],[],EBADF⟩
  | .noMalloc error =>
    some ⟨none,[.perr .error ("[Parse FATAL] ".toList ++ c.filename ++ " malloc fail ".toList ++
      error)],[],ENOMEM⟩
  | .shortRead => some ⟨none,[],[],EBADF⟩
  | .bytes text => do
    let r ← parseLines c text.length (text.length + 1) (text ++ [nul]) 0 []
    return ⟨some true,[.perr .info (c.mic ++ ": [Parse] ".toList ++ c.filename)],r.1,r.2⟩

inductive Found
  | missing
  | unreadable
  | read
deriving DecidableEq

/-- The lines of a file that have a handler, with those of the files that `Include` lines name.
`other` is a line by what its handler returns. -/
inductive Script
  | done
  | version (major minor : Int) (rest : Script)
  | includes (found : Found) (body rest : Script)
  | other (ret : Int) (rest : Script)

/-- Whether `mc_version` returns an error. -/
def mcVersion (major minor : Int) : Bool :=
  let version := (major * 2 ^ 16 + minor).bmod (2 ^ 32)
  version < 2 ^ 16 ∨ version > 2 ^ 16 + 1

/-- `config.valid` behind the lines of a file, `none` as long as it is `NOTSET`. What an included
file returns is dropped. -/
def parseScript : Script → Option Bool → Option Bool
  | .done,valid => valid
  | .version major minor rest,valid =>
    if mcVersion major minor then some false else parseScript rest valid
  | .other ret rest,valid => if ret ≠ 0 then valid else parseScript rest valid
  | .includes found body rest,valid =>
    parseScript rest (match found with
      | .missing => some false
      | .unreadable => valid
      | .read => parseScript body (some true))

def mpssParseConfig (found : Found) (body : Script) : Option Bool :=
  parseScript (.includes found body .done) none

end Mpss.Mpssconfig.Parse
