import Mathlib.Data.List.Infix
import Mpss.Library.Bytes

namespace Mpss.Systools.FatReader
open Library.Bytes

inductive Hddimg
  | eError
  | eStartupA
  | eStartupB
  | eStartupX
  | eStartupT
  | eBios
  | eME
  | eSMCFabA
  | eSMCFabB
  | eIflash
  | eIPMI
  | eIftemp
  | eCount
  | eCapsule
deriving DecidableEq,Repr

def ascii (text : String) : List UInt8 := text.toList.map (fun c => UInt8.ofNat c.toNat)

def MAXFILESIZE : Nat := 10485760
def ROOTDIRSIZE : Nat := 32
def CLUSTEROFFSET : Nat := 2

/-- Every pattern is tried, and the last one that fits decides. -/
def getFileID (line : List UInt8) : Hddimg :=
  let begins (pattern : String) : Bool := decide (ascii pattern <+: line)
  let has (part : String) : Bool := decide (ascii part <:+: line)
  let is (pattern : String) : Bool := decide (line = ascii pattern)
  if is "capsule.cfg" then .eCapsule
  else if is "iflash32_temp.efi" then .eIftemp
  else if is "ipmi.efi" then .eIPMI
  else if is "test.nsh" then .eStartupT
  else if is "fabx.nsh" then .eStartupX
  else if is "fabb.nsh" then .eStartupB
  else if is "faba.nsh" then .eStartupA
  else if is "iflash32.efi" then .eIflash
  else if begins "uBMC_OP_KNL_" && has "_LB_FabB" then .eSMCFabB
  else if begins "uBMC_OP_KNL_" && has "_LB_FabA" then .eSMCFabA
  else if begins "ME_SPS_PHI_" && has "_LB" then .eME
  else if begins "GVP" && has "_LB" then .eBios
  else .eError

structure BootSector where
  sectorSize : Nat
  sectorPerCluster : Nat
  reservedSec : Nat
  numberFats : Nat
  rootEntries : Nat
  sectorPerFat : Nat
  rootDirAddr : Nat
deriving Repr

/-- The short constructor of the source leaves `entryPosition` and `fileID` uninitialised. -/
structure DataFile where
  fileSize : Nat
  startingCluster : Nat
  entryPosition : Option Nat
  fileName : List UInt8
  fileID : Option Hddimg
  rawData : List UInt8
deriving DecidableEq,Repr

variable (image : List UInt8)

def fread (pos n : Nat) : List UInt8 := (image.drop pos).take n

def word (bytes : List UInt8) : Nat := bytes.foldr (fun b n => b.toNat + 256 * n) 0

def freadWord (pos n : Nat) : Option Nat :=
  let bytes := fread image pos n
  if bytes.length = n then some (word bytes) else none

/-- `fseek` takes a signed offset and fails where it is negative. -/
def fseek (bits offset : Nat) : Option Nat := if offset < 2 ^ (bits - 1) then some offset else none

def getRootDirOffset : Option BootSector := do
  let sectorSize ← freadWord image 0x0B 2
  let sectorPerCluster ← freadWord image 0x0D 1
  let reservedSec ← freadWord image 0x0E 2
  let numberFats ← freadWord image 0x10 1
  let rootEntries ← freadWord image 0x11 2
  let sectorPerFat ← freadWord image 0x16 2
  some ⟨sectorSize,sectorPerCluster,reservedSec,numberFats,rootEntries,sectorPerFat,
    (reservedSec + numberFats * sectorPerFat) * sectorSize % 2 ^ 32⟩

def getLongNamePortionFromEntry (entry : List UInt8) : List UInt8 :=
  ((entry.drop 1).take 10 ++ (entry.drop 14).take 12 ++ (entry.drop 28).take 4).filter
    (fun c => c != 0xff && c != 0)

def lowered (lower : Bool) (c : UInt8) : UInt8 := if 65 ≤ c ∧ c ≤ 90 ∧ lower then c ||| 0x20 else c

/-- The point is there whether or not an extension follows. -/
def getShortNameFromEntry (entry : List UInt8) : DataFile :=
  let case := entry.getD 12 0
  let name := ((entry.take 8).filter (· != 0x20)).map (lowered (case &&& 0x08 != 0)) ++
    0x2e :: (((entry.drop 8).take 3).filter (· != 0x20)).map (lowered (case &&& 0x10 != 0))
  ⟨word ((entry.drop 28).take 4),word ((entry.drop 26).take 2),none,name,none,[]⟩

variable (b : BootSector)

def BootSector.clusterBytes : Nat := b.sectorPerCluster * b.sectorSize

def BootSector.fatStart : Nat := b.reservedSec * b.sectorSize

def BootSector.dataStart : Nat := (b.rootDirAddr + b.rootEntries * ROOTDIRSIZE) % 2 ^ 32

/-- The address of a cluster in 64-bit arithmetic; the clusters 0 and 1 wrap around. -/
def BootSector.clusterStart (cluster : Nat) : Nat :=
  (b.dataStart + b.clusterBytes * ((cluster + 2 ^ 64 - CLUSTEROFFSET) % 2 ^ 64)) % 2 ^ 64

/-- The variables of `getFile`. -/
structure Cursor where
  pos : Nat
  cluster : Nat
  fileToGo : Nat
  clusterToGo : Nat
  count : Nat
  buffer : Memory UInt8

/-- `astray` is a write outside the buffer, or a loop without an end. -/
inductive Reading
  | whole (buffer : Memory UInt8)
  | failed
  | astray

/-- Where a cluster has been read, the next one is looked up in the file allocation table. -/
def nextCluster (c : Cursor) : Option Cursor :=
  if c.clusterToGo = 0 then do
    let cluster ← freadWord image (b.fatStart + c.cluster * CLUSTEROFFSET) 2
    let pos ← fseek 64 (b.clusterStart cluster)
    some { c with cluster := cluster,pos := pos,clusterToGo := b.clusterBytes }
  else some c

/-- The loop of `getFile`: the block number decides where bytes go, and the first cluster is
compared with `0xFFFF`. -/
def readBlocks (startingCluster : Nat) : Nat → Cursor → Reading
  | 0,c => if c.fileToGo = 0 ∨ startingCluster = 0xFFFF then .whole c.buffer else .astray
  | fuel + 1,c =>
    if c.fileToGo = 0 ∨ startingCluster = 0xFFFF then .whole c.buffer
    else
      let bytesToRead := min (min 4096 c.fileToGo) c.clusterToGo
      let bytes := fread image c.pos bytesToRead
      let place := b.clusterBytes * c.count
      if MAXFILESIZE < place + bytes.length then .astray
      else if bytes.length ≠ bytesToRead then .failed
      else
        let read : Cursor :=
          { c with
            pos := c.pos + bytes.length
            fileToGo := c.fileToGo - bytes.length
            clusterToGo := c.clusterToGo - bytes.length
            buffer := blit c.buffer place (bytes.getD · 0) bytes.length }
        match nextCluster image b read with
        | none => .failed
        | some next => readBlocks startingCluster fuel { next with count := next.count + 1 }

/-- Each turn reads at least one byte of the file where clusters have bytes at all. -/
def getFile (datafile : DataFile) (buffer : Memory UInt8) : Reading :=
  if MAXFILESIZE < datafile.fileSize then .failed
  else
    match fseek 64 (b.clusterStart datafile.startingCluster) with
    | none => .failed
    | some pos =>
      readBlocks image b datafile.startingCluster datafile.fileSize
        ⟨pos,datafile.startingCluster % 2 ^ 16,datafile.fileSize,b.clusterBytes,0,buffer⟩

structure Walk where
  pos : Nat
  count : Nat
  fileName : List UInt8
  buffer : Memory UInt8
  files : List DataFile
  error : Bool

inductive Turn
  | next (w : Walk)
  | stop (error : Bool) (files : List DataFile)
  | astray

/-- The file of a short entry is read and added, under its long name if there is one. -/
def addFile (w : Walk) (pos : Nat) (text : List UInt8) (longName : Option (List UInt8)) : Turn :=
  let datafile := getShortNameFromEntry text
  match getFile image b datafile w.buffer with
  | .astray => .astray
  | .failed => .stop true w.files
  | .whole buffer =>
    let fileName := longName.getD datafile.fileName
    .next { w with
      buffer := buffer
      fileName := if longName.isSome then [] else w.fileName
      error := false
      files := w.files ++ [{ datafile with
        entryPosition := some pos
        fileName := fileName
        fileID := some (getFileID fileName)
        rawData := (List.range datafile.fileSize).map buffer }] }

/-- A long name of one part is added as a file of its own; the first entry of a longer one gives the
number of its parts. -/
def noteLongName (w : Walk) (text : List UInt8) : Walk :=
  let first := text.getD 0 0
  if first = 0x41 ∧ text.getD 11 0 = 0x0f ∧ w.count = 0 then
    { w with files := w.files ++ [⟨0,0,none,getLongNamePortionFromEntry text,none,[]⟩] }
  else if text.getD 11 0 = 0x0f ∧ first ||| 0x40 = first then { w with count := first.toNat - 0x40 }
  else w

/-- The rest of a turn. With the last part of a long name the short entry after it is read as
well. -/
def useEntry (pos : Nat) (text : List UInt8) (w : Walk) : Turn :=
  if text.getD 11 0 = 0x0f ∧ 0 < w.count then
    let fileName := getLongNamePortionFromEntry text ++ w.fileName
    if w.count = 1 then
      let short := fread image w.pos ROOTDIRSIZE
      if short.length ≠ ROOTDIRSIZE then .stop true w.files
      else
        addFile image b { w with pos := w.pos + ROOTDIRSIZE,count := 0,fileName := fileName } pos
          short (some fileName)
    else .next { w with count := w.count - 1,fileName := fileName,error := false }
  else if text.getD 11 0 = 0x20 then addFile image b w pos text none
  else .next { w with error := false }

def turn (w : Walk) : Turn :=
  let text := fread image w.pos ROOTDIRSIZE
  if text.length ≠ ROOTDIRSIZE then .stop true w.files
  else if text.getD 0 0 = 0 then .stop false w.files
  else useEntry image b w.pos text (noteLongName { w with pos := w.pos + ROOTDIRSIZE } text)

/-- The loop of `process`, with the number of turns that are left: whether there was an error, and
the files. -/
def walk : Nat → Walk → Option (Bool × List DataFile)
  | 0,w => some (w.error,w.files)
  | n + 1,w =>
    match turn image b w with
    | .next w => walk n w
    | .stop error files => some (error,files)
    | .astray => none

/-- `process` on a reader with the given files; an image is missing where it cannot be opened. None
where the call does not return. -/
def process (files : List DataFile) (image : Option (List UInt8)) : Option (Bool × List DataFile) :=
  match image with
  | none => some (false,files)
  | some image =>
    match getRootDirOffset image with
    | none => some (false,files)
    | some b =>
      match fseek 32 b.rootDirAddr with
      | none => some (false,files)
      | some pos =>
        (walk image b b.rootEntries ⟨pos,0,[],fun _ => 0,files,true⟩).map (fun (error,files) =>
          (!error && !files.isEmpty,files))

end Mpss.Systools.FatReader
