import Mpss.Mpssconfig.Miclist

namespace Mpss.Micctrl.Users
open Mpssconfig.Miclist (Name)

/-- A line as `fgets` returns it: a text, and whether a newline follows. -/
structure Line where
  text : Name
  ended : Bool
deriving DecidableEq

def Line.raw (line : Line) : Name := line.text ++ if line.ended then ['\n'] else []

/-- The text before the first colon and behind it, as `strchr` splits it. -/
def cut (s : Name) : Option (Name × Name) :=
  if ':' ∈ s then some (s.takeWhile (· ≠ ':'),(s.dropWhile (· ≠ ':')).tail) else none

structure Micuser where
  user : Name
  uid : Nat
  gid : Nat
  name : Name
  home : Name
  app : Name
deriving DecidableEq

variable (atoi : Name → Nat)

/-- `atoi` reads up to the colon. -/
def parsePwfile (line : Line) : Option Micuser := do
  let (user,pw) ← cut line.text
  let (_,tmp1) ← cut pw
  let (uid,tmp2) ← cut tmp1
  let (gid,name) ← cut tmp2
  let (name,home) ← cut name
  let (home,app) ← cut home
  if line.ended then return ⟨user,atoi uid,atoi gid,name,home,app⟩ else none

/-- The copy without the lines replaces the file when there were any. -/
def removeFromShadow (user : Name) (shadow : List Line) : List Line :=
  shadow.filter (fun line => ¬ user <+: line.raw)

/-- Where the card's files are: `holds` says whether the tree at one path has the file at another,
and `tempname` is what `mpssut_tempnam` makes of `/etc/passwd`. -/
structure Tree where
  base : Name
  tempname : Name
  holds : Name → Name → Bool

/-- What `mpssut_deltree` on a home leaves of the file at a path. -/
def Tree.deltree (tree : Tree) (home path : Name) (file : Option (List Line)) : Option (List Line) :=
  if tree.holds (tree.base ++ home) (tree.base ++ path) then none else file

/-- The files are none once their names are gone. -/
structure Removal where
  ret : Nat
  passwd : Option (List Line)
  copy : Option (List Line)
  shadow : Option (List Line)
  phome : Option Name

def removeLine (tree : Tree) (atoi : Name → Nat) (name : Name) (r : Removal) (line : Line) : Removal :=
  match parsePwfile atoi line with
  | none => r
  | some pw =>
    if pw.user ≠ name then { r with copy := r.copy.map (· ++ [line]) }
    else
      { ret := 0
        passwd := tree.deltree pw.home "/etc/passwd".toList r.passwd
        copy := tree.deltree pw.home tree.tempname r.copy
        shadow := (tree.deltree pw.home "/etc/shadow".toList r.shadow).map (removeFromShadow name)
        phome := some pw.home }

/-- Both names have to be there still; the file is put back when the copy is not. -/
def mpssutRename (input output : Option (List Line)) : Nat × Option (List Line) :=
  if input.isSome ∧ output.isSome then (0,input) else (1,output)

/-- The files can be opened, and a rename of what is there succeeds. -/
def removeUser (tree : Tree) (atoi : Name → Nat) (name : Name) (passwd shadow : List Line) : Removal :=
  let r := passwd.foldl (removeLine tree atoi name) ⟨2,some passwd,some [],some shadow,none⟩
  if r.ret = 0 then
    { r with ret := (mpssutRename r.copy r.passwd).1,passwd := (mpssutRename r.copy r.passwd).2 }
  else r

def removeGroup (name : Name) (group : List Line) : Nat × List Line :=
  if group.any (fun line => (cut line.text).any (·.1 = name)) then
    (0,group.filter (fun line => (cut line.text).any (·.1 ≠ name)))
  else (1,group)

/-- The walk for one user of the host from where the last one ended: what was passed, and the
rest. -/
def placeUser (host : Micuser) (pre : List Micuser) : List Micuser → List Micuser × List Micuser
  | [] => (pre,[])
  | u :: ulist =>
    if u.user = host.user ∨ u.uid = host.uid then (pre,u :: ulist)
    else if ulist = [] then (pre,[u,host])
    else placeUser host (pre ++ [u]) ulist

def hostUsers (minUid : Nat) (hpw : List Line) : List Micuser :=
  (hpw.filterMap (parsePwfile atoi)).filter (fun host => minUid ≤ host.uid ∧ host.uid ≠ 65534)

def genUsersFromHost (minUid : Nat) (ulist : List Micuser) (hpw : List Line) : List Micuser :=
  let r := (hostUsers atoi minUid hpw).foldl (fun r host => placeUser host r.1 r.2) ([],ulist)
  r.1 ++ r.2

end Mpss.Micctrl.Users
