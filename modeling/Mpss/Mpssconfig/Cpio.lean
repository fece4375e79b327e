import Mpss.Library.Newc
import Mpss.Mpssconfig.FileTree

namespace Mpss.Mpssconfig.Cpio
open Library.Newc Miclist FileTree

def PATH_MAX : Nat := 4096

def S_IFSOCK : Nat := 0o140000
def S_IFLNK : Nat := 0o120000
def S_IFREG : Nat := 0o100000
def S_IFBLK : Nat := 0o060000
def S_IFDIR : Nat := 0o040000
def S_IFCHR : Nat := 0o020000
def S_IFIFO : Nat := 0o010000

def u32 (n : Nat) : Nat := n % 2 ^ 32

def uidT (n : Int) : UInt32 := UInt32.ofInt n

/-- The macros of `linux/kdev_t.h`, the first on an `unsigned int`. -/
def MKDEV (major minor : Nat) : Nat := u32 (major <<< 8) ||| minor
def MAJOR (dev : Nat) : Nat := u32 (dev >>> 8)
def MINOR (dev : Nat) : Nat := dev &&& 0xff

structure Stat where
  mode : Nat
  uid : UInt32
  gid : UInt32
  rdev : Nat
  size : Nat

def Stat.isLink (s : Stat) : Bool := s.mode &&& 0o170000 = S_IFLNK

/-- A file that could be opened: `fstat` on it, and what `read` returns for a size. -/
structure File where
  fstat : Except Name Stat
  read : Nat → Option Bytes

/-- What the system answers. Time and allocations depend on the bytes written before, since they may
differ from call to call; `relstat` is `lstat` once the file is open. -/
structure Env where
  destdir : Option Name
  time : Nat → Int
  malloc : Nat → Bool
  stat : Name → Except Name Stat
  lstat : Name → Except Name Stat
  relstat : Name → Except Name Stat
  file : Name → Option File
  errno : Name

/-- The archive file, and the variables of `gen_cpio`. -/
structure Out where
  bytes : Bytes
  inode : Nat
  offset : Nat
  perrs : List Name

variable (o : Out)

def Out.put (s : Bytes) : Out := { o with bytes := o.bytes ++ s }

def Out.advance (n : Nat) : Out := { o with offset := u32 (o.offset + n) }

def Out.perr (text : Name) : Out := { o with perrs := o.perrs ++ [text] }

/-- A loop that writes zeros while `n` is no multiple of `k`, and counts them. -/
def Out.pad (k n : Nat) : Out := (o.put (List.replicate (padding k n) nul)).advance (padding k n)

/-- The text for `%s`, also of a null pointer. -/
def shown : Option Name → Name
  | some s => s
  | none => "(null)".toList

/-- The `fprintf` of a header. The values for `%08lX` are `long`. -/
def header (ino mode : Nat) (uid gid : Int) (nlink : Nat) (mtime filesize : Int)
    (major minor rmajor rminor namesize : Nat) :
    Bytes :=
  let x := fun n => hexField (u32 n)
  let lx := fun n : Int => hexField (n % 2 ^ 64).toNat
  magic ++ x ino ++ x mode ++ lx uid ++ lx gid ++ x nlink ++ lx mtime ++ lx filesize ++ x major ++
    x minor ++ x rmajor ++ x rminor ++ x namesize ++ x 0

/-- The header is written and the inode number used up. -/
def Out.header (o : Out) (time : Nat → Int) (mode : Nat) (st : Stat) (nlink : Nat) (filesize : Int)
    (rmajor rminor namesize : Nat) :
    Out :=
  { o with
    bytes := o.bytes ++
      Cpio.header o.inode mode st.uid.toNat st.gid.toNat nlink (time o.bytes.length) filesize 3 1
      rmajor rminor namesize
    inode := u32 (o.inode + 1)
    offset := u32 (o.offset + 110) }

/-- `snprintf` of a leader and a name into a buffer of `PATH_MAX`: the buffer and what it
returns. -/
def fullName (leader name : Name) : Name × Nat :=
  ((leader ++ '/' :: name).take (PATH_MAX - 1),(leader ++ '/' :: name).length)

def pushRest (name : Name) (o : Out) : Out :=
  let nameLen := u32 (name.length + 1)
  ((o.put (name ++ [nul])).advance nameLen).pad 4 (u32 (nameLen + 110))

/-- `stat` or `lstat` on the source; a null pointer is a bad address. -/
def onSource (f : Name → Except Name Stat) (e : Entry) : Except Name Stat :=
  match e.source with
  | some s => f s
  | none => .error "Bad address".toList

/-- The attributes of an entry: its own when they came from a file list, else those of its
source. -/
def attributes (f : Name → Except Name Stat) (e : Entry) : Except Name Stat :=
  if e.uid ≠ -1 then .ok ⟨e.mode,uidT e.uid,uidT e.gid,MKDEV e.major e.minor,0⟩ else onSource f e

variable (env : Env)

def genPlain (e : Entry) (leader message : Name) (mode : Stat → Nat) (nlink : Nat)
    (rdev : Stat → Nat × Nat) (o : Out) : Out :=
  let name := fullName leader e.name
  match attributes env.stat e with
  | .error text =>
    o.perr (message ++ " Invalid source file ".toList ++ shown e.source ++ ": ".toList ++ text)
  | .ok st =>
    pushRest (name.1.drop 1) (o.header env.time (mode st) st nlink 0 (rdev st).1 (rdev st).2 name.2)

def genDir (d : Entry) (leader : Name) (o : Out) : Out :=
  genPlain env d leader ("[GenDir] '/".toList ++ d.name ++ "'".toList)
    (fun st => (st.mode &&& 0o777) ||| S_IFDIR) 2 (fun _ => (0,0)) o

def genNode (n : Entry) (leader : Name) (o : Out) : Out :=
  genPlain env n leader "[GenNode]".toList
    (fun st => if n.inodeType = 'b' then (st.mode &&& 0o777) ||| S_IFBLK
    else (st.mode &&& 0o777) ||| S_IFCHR) 1
    (fun st => (MAJOR st.rdev,MINOR st.rdev)) o

def genPipe (p : Entry) (leader : Name) (o : Out) : Out :=
  genPlain env p leader "[GenPipe]".toList (fun st => (st.mode &&& 0o777) ||| S_IFIFO) 2
    (fun _ => (0,0)) o

def genSock (s : Entry) (leader : Name) (o : Out) : Out :=
  genPlain env s leader "[GenSock]".toList (fun st => (st.mode &&& 0o777) ||| S_IFSOCK) 2
    (fun _ => (0,0)) o

/-- The name and the data behind a header, padded by the running offset. -/
def nameAndData (name : Name) (nameLen : Nat) (data : Bytes) (o : Out) : Out :=
  let o := (o.put (name ++ [nul])).advance (u32 nameLen)
  let o := o.pad 4 o.offset
  let o := (o.put data).advance data.length
  o.pad 4 o.offset

def genSlink (l : Entry) (leader : Name) (o : Out) : Out :=
  let name := fullName leader l.name
  match attributes env.lstat l with
  | .error text =>
    o.perr ("[GenSlink] Invalid source file ".toList ++ shown l.source ++ ": ".toList ++ text)
  | .ok st =>
    nameAndData (name.1.drop 1) name.2 (l.link ++ [nul])
      (o.header env.time ((st.mode &&& 0o777) ||| S_IFLNK) st 1 (u32 (l.link.length + 1)) 0 0 name.2)

/-- The path that `mpssut_filename` makes of a source. -/
def filename (source : Option Name) : Name :=
  let dir := ((env.destdir.getD []).take (PATH_MAX - 1))
  (dir ++ shown source).take (PATH_MAX - 1)

/-- The data of a file and its attributes, or the message. -/
def fileData (f : Entry) (o : Out) : Except Name (Stat × Bytes) := do
  let src := filename env f.source
  let source := shown f.source
  match env.lstat src with
  | .error _ => .error ("Invalid source file: ".toList ++ source)
  | .ok _ => .ok ()
  let file ← match env.file src with
    | none => .error ("Could not open source file: ".toList ++ source)
    | some file => .ok file
  let sbuf ← match file.fstat with
    | .error text => .error ("CPIO gen ".toList ++ source ++ " fstat failed: ".toList ++ text)
    | .ok sbuf => .ok sbuf
  let lbuf ← match env.relstat src with
    | .error text => .error ("CPIO gen ".toList ++ source ++ " lstat failed: ".toList ++ text)
    | .ok lbuf => .ok lbuf
  if lbuf.isLink then
    .error ("CPIO gen ".toList ++ source ++ " file has changed to a symbolic link: ".toList ++
      env.errno)
  else if sbuf.size > 0xffffffff - 1 then
    .error ("CPIO gen ".toList ++ source ++ " field width not sufficient for storing file size".toList)
  else if env.malloc o.bytes.length = false then
    .error ("CPIO gen ".toList ++ source ++ ": malloc faileds".toList)
  else
    let data := file.read sbuf.size
    let rsize : Int := (data.map (fun data => Int.ofNat data.length)).getD (-1)
    if rsize ≠ sbuf.size then
      .error ("CPIO gen ".toList ++ source ++ ": read size ".toList ++ decimal rsize ++
        " does not match stat size ".toList ++ decimal sbuf.size)
    else
      let st := if f.uid ≠ -1 then { sbuf with uid := uidT f.uid,gid := uidT f.gid,mode := f.mode }
        else sbuf
      .ok (st,data.getD [])

def genFile (f : Entry) (leader : Name) (o : Out) : Out :=
  let name := (fullName leader f.name).1
  match fileData env f o with
  | .error text => o.perr text
  | .ok (st,data) =>
    nameAndData (name.drop 1) name.length data
      (o.header env.time ((st.mode &&& 0o777) ||| S_IFREG) st 1 data.length 0 0 name.length)

/-- The entries of a directory one after the other, with those below each of them. -/
def followDir : Tree → Name → Out → Out
  | .nil,_,o => o
  | .cons e subdir next,leader,o =>
    match e.type with
    | .dir =>
      let o := genDir env e leader o
      if env.malloc o.bytes.length then followDir next leader
        (followDir subdir (leader ++ '/' :: e.name) o) else o
    | .file => followDir next leader (genFile env e leader o)
    | .link => followDir next leader (genSlink env e leader o)
    | .dnode => followDir next leader (genNode env e leader o)
    | .pipe => followDir next leader (genPipe env e leader o)
    | .sock => followDir next leader (genSock env e leader o)

def cpioTrailer : Out :=
  let name := "TRAILER!!!".toList
  let o := (o.put (Cpio.header 0 0 0 0 1 0 0 0 0 0 0 (u32 (name.length + 1)))).advance 110
  let o := pushRest name o
  o.pad 512 o.offset

def genCpio (subdir : Tree) : Out := cpioTrailer (followDir env subdir [] ⟨[],721,0,[]⟩)

end Mpss.Mpssconfig.Cpio
