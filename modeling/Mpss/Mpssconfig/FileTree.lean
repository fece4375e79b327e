import Mpss.Mpssconfig.Miclist

namespace Mpss.Mpssconfig.FileTree
open Miclist

inductive Kind
  | dir
  | file
  | link
  | dnode
  | pipe
  | sock
deriving DecidableEq

/-- The data of a `struct filetree`; `mode` is the bit pattern of the `int`, and `unset` says that
`source` was never given a value. -/
structure Entry where
  type : Kind
  name : Name
  source : Option Name
  link : Name
  mode : Nat
  uid : Int
  gid : Int
  inodeType : Char
  major : Nat
  minor : Nat
  unset : Bool
deriving DecidableEq

/-- A list of entries along `next`, each with the list at its `subdir`. -/
inductive Tree
  | nil
  | cons (entry : Entry) (subdir next : Tree)
deriving DecidableEq

def getTypeString : Kind → Name
  | .dir => "dir".toList
  | .file => "file".toList
  | .link => "slink".toList
  | .dnode => "nod".toList
  | .pipe => "pipe".toList
  | .sock => "sock".toList

/-- The results of the calls of `malloc` to come; those not listed succeed. -/
abbrev Memory := List Bool

def Memory.next (m : Memory) : Bool := m.headD true

/-- `1` is returned with a message of `add_perr`, or `free` gets a pointer that was never set. -/
inductive Failure
  | message (text : Name)
  | badFree
deriving DecidableEq

/-- Nothing when `0` is returned. -/
abbrev Outcome := Option Failure

variable (id : Int) (name : Name)

def noName : Name :=
  "mic".toList ++ decimal id ++ ": failed memory alloc file name '".toList ++ name ++
    "' skipping".toList

def noEntry : Name :=
  "mic".toList ++ decimal id ++ ": memory alloc failed for entry ".toList ++ name ++
    " - skipping".toList

def mismatch (old new : Kind) : Name :=
  "mic".toList ++ decimal id ++ ": overlay ".toList ++ name ++
    " abort mismatched types changing from ".toList ++
    getTypeString old ++ " to ".toList ++ getTypeString new

def missing : Entry := ⟨.dir,name,none,[],0o755,0,0,Char.ofNat 0,0,0,false⟩

def allocAndFillMissingEntry (m : Memory) : Except Name Entry :=
  if m.next = false then .error (noEntry id name)
  else if Memory.next m.tail = false then .error (noName id name)
  else .ok (missing name)

def overwriteEntry (new cur : Entry) : Entry × Outcome :=
  if cur.type ≠ new.type then (cur,some (.message (mismatch id cur.name cur.type new.type)))
  else if cur.unset then (cur,some .badFree)
  else
    ({ cur with
      source := new.source,mode := new.mode,uid := new.uid,gid := new.gid,unset := new.unset },none)

def linked : Option (Entry × Tree) → Tree → Tree
  | some (e,subdir),next => .cons e subdir next
  | none,next => next

/-- The loop of `insert_list` over a directory in the order of `strcmp`: a name that is not there
goes before the first greater one. -/
def atName (cur : Name) (create : Option (Entry × Tree) × Outcome)
    (found : Entry → Tree → (Entry × Tree) × Outcome) : Tree → Tree × Outcome
  | .nil => (linked create.1 .nil,create.2)
  | .cons e subdir next =>
    if cur < e.name then (linked create.1 (.cons e subdir next),create.2)
    else if cur = e.name then (linked (some (found e subdir).1) next,(found e subdir).2)
    else (.cons e subdir (atName cur create found next).1,(atName cur create found next).2)

/-- The parts of the path between the slashes. An empty path, also behind a last slash, inserts
nothing. -/
def insertList (new : Entry) : List Name → Memory → Tree → Tree × Outcome
  | [],_,t => (t,none)
  | [cur],m,t =>
    if cur = [] then (t,none)
    else
      atName cur
        (if m.next = false then (none,some (.message (noName id cur)))
        else (some ({ new with name := cur },.nil),none))
        (fun e subdir => (((overwriteEntry id new e).1,subdir),(overwriteEntry id new e).2)) t
  | cur :: part :: rest,m,t =>
    atName cur
      (match allocAndFillMissingEntry id cur m with
      | .error text => (none,some (.message text))
      | .ok e =>
        let below := insertList new (part :: rest) (m.drop 2) .nil
        (some (e,below.1),below.2))
      (fun e subdir =>
        let below := insertList new (part :: rest) m subdir
        ((e,below.1),below.2)) t

structure Insertion where
  path : Name
  new : Entry
  memory : Memory

def insert (i : Insertion) (t : Tree) : Tree × Outcome :=
  insertList id i.new (i.path.splitOn '/') i.memory t

def simplePath (target lead filename : Name) : Name :=
  if target.length + lead.length + filename.length + 3 > 4096 then []
  else (if target = ['/'] then [] else target) ++ ['/'] ++ (if lead = [] then [] else lead ++
    ['/']) ++ filename

/-- What the functions that add an entry hand to `insert_list`; `junk` is what the allocated memory
holds. -/
def addLink (junk : Entry) (path target : Name) (mode : Nat) (uid gid : Int)
    (m : Memory) : Insertion :=
  ⟨path.drop 1,
    { junk with type := .link,link := target,mode := mode,uid := uid,gid := gid,unset := true },m⟩

def addSimpleLink (source linked target lead filename : Name) (m : Memory) : Insertion :=
  ⟨(simplePath target lead filename).drop 1,⟨.link,[],some source,linked,0,-1,0,
    Char.ofNat 0,0,0,false⟩,m⟩

def addDnode (junk : Entry) (path : Name) (mode : Nat) (uid gid : Int) (type : Char)
    (major minor : Nat) (m : Memory) :
    Insertion :=
  ⟨path.drop 1,
    { junk with
      type := .dnode,mode := mode,uid := uid,gid := gid,inodeType := type,major := major,minor := minor
      unset := true },m⟩

def addSimpleNod (junk : Entry) (type : Char) (source target lead filename : Name)
    (m : Memory) : Insertion :=
  ⟨(simplePath target lead filename).drop 1,
    { junk with type := .dnode,source := some source,uid := -1,inodeType := type,unset := false },m⟩

/-- What is inserted from each place, in the order of the calls. -/
structure Filesrc where
  base : List Insertion
  baseIsDir : Bool
  common : List Insertion
  overlays : List (Bool × List Insertion)
  mic : List Insertion

def Filesrc.insertions (s : Filesrc) : List Insertion :=
  (if s.baseIsDir then s.base else []) ++ s.common ++ (s.overlays.filter (fun o => o.1)).flatMap
    (fun o => o.2) ++ s.mic

/-- The tree as far as no pointer that was never set is freed. -/
def genFsTree (s : Filesrc) : Tree := s.insertions.foldl (fun t i => (insert id i t).1) .nil

end Mpss.Mpssconfig.FileTree
