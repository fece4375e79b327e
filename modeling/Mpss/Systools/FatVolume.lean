import Mpss.Library.Bytes

namespace Mpss.Systools.FatVolume
open Library.Bytes

def littleEndian : Nat → Nat → List UInt8
  | 0,_ => []
  | width + 1,n => UInt8.ofNat (n % 256) :: littleEndian width (n / 256)

/-- The layout that the boot sector gives, each number within its field. -/
structure Geometry where
  sectorSize : Nat
  sectorPerCluster : Nat
  reservedSec : Nat
  numberFats : Nat
  rootEntries : Nat
  sectorPerFat : Nat
  sector_pos : 0 < sectorSize
  sector_fits : sectorSize < 2 ^ 16
  cluster_pow : ∃ k,sectorPerCluster = 2 ^ k
  cluster_fits : sectorPerCluster < 2 ^ 8
  reserved_fits : reservedSec < 2 ^ 16
  fats_fit : numberFats < 2 ^ 8
  entries_fit : rootEntries < 2 ^ 16
  table_fits : sectorPerFat < 2 ^ 16

variable (g : Geometry)

def Geometry.clusterBytes : Nat := g.sectorPerCluster * g.sectorSize

def Geometry.fatStart : Nat := g.reservedSec * g.sectorSize

def Geometry.rootStart : Nat := (g.reservedSec + g.numberFats * g.sectorPerFat) * g.sectorSize

/-- The root directory takes whole sectors. -/
def Geometry.dataStart : Nat :=
  g.rootStart + (g.rootEntries * 32 + g.sectorSize - 1) / g.sectorSize * g.sectorSize

def Geometry.clusterStart (cluster : Nat) : Nat := g.dataStart + (cluster - 2) * g.clusterBytes

/-- A file of the root directory. `parts` are the thirteen characters of each part of the long name;
`data` are the bytes as far as its chain reaches. -/
structure Stored where
  base : List UInt8
  ext : List UInt8
  lowerBase : Bool
  lowerExt : Bool
  attributes : UInt8
  times : List UInt8
  long : List UInt16
  parts : List (List UInt16)
  size : Nat
  chain : List Nat
  data : List UInt8

variable (f : Stored)

/-- The archive bit is set, and it is neither a directory nor a volume label. -/
def Stored.archive : Bool := f.attributes &&& 0x38 == 0x20

/-- Whether the chain is long enough for the size. -/
def Stored.complete : Bool := f.size ≤ f.chain.length * g.clusterBytes

def lowerCase (lower : Bool) (c : UInt8) : UInt8 := if lower ∧ 65 ≤ c ∧ c ≤ 90 then c + 32 else c

/-- A first character `0xe5` is stored as `0x05`. -/
def restored : List UInt8 → List UInt8
  | 0x05 :: rest => 0xe5 :: rest
  | base => base

/-- The name and the extension, with a point between them if there is an extension. -/
def Stored.shortName : List UInt8 :=
  (restored f.base).map (lowerCase f.lowerBase) ++ if f.ext = [] then [] else 0x2e :: f.ext.map
    (lowerCase f.lowerExt)

/-- The character codes of the name: the long one if there is one. -/
def Stored.name : List Nat :=
  if f.long = [] then f.shortName.map UInt8.toNat else f.long.map UInt16.toNat

def padded (n : Nat) (s : List UInt8) : List UInt8 := s ++ List.replicate (n - s.length) 0x20

def Stored.shortEntry : List UInt8 :=
  padded 8 f.base ++ (padded 3 f.ext ++ (f.attributes :: ((if f.lowerBase then 0x08 else 0) +
    if f.lowerExt then 0x10 else 0) :: (f.times ++ (littleEndian 2 (f.chain.headD 0) ++
      littleEndian 4 f.size))))

/-- The checksum of the short name that the parts of the long name carry. -/
def Stored.checksum : UInt8 :=
  (padded 8 f.base ++ padded 3 f.ext).foldl (fun sum b => ((sum &&& 1) <<< 7) + (sum >>> 1) + b) 0

def characters (units : List UInt16) : List UInt8 := units.flatMap (fun u => littleEndian 2 u.toNat)

def longEntry (sequence checksum : UInt8) (part : List UInt16) : List UInt8 :=
  sequence :: (characters (part.take 5) ++ (0x0f :: 0 :: checksum ::
    (characters ((part.drop 5).take 6) ++
    (0 :: 0 :: characters (part.drop 11)))))

/-- Parts with the numbers they have in the directory, the last part first. -/
def numbered (checksum : UInt8) : List (List UInt16) → List (List UInt8)
  | [] => []
  | part :: rest => longEntry (UInt8.ofNat (rest.length + 1)) checksum part :: numbered checksum rest

/-- The first entry of a long name is marked with `0x40`. -/
def Stored.longEntries : List (List UInt8) :=
  match f.parts.reverse with
  | [] => []
  | part :: rest =>
    longEntry (UInt8.ofNat (0x40 + (rest.length + 1))) f.checksum part :: numbered f.checksum rest

inductive Slot
  | deleted (rest : List UInt8)
  | live (file : Stored)

def Slot.entries : Slot → List (List UInt8)
  | .deleted rest => [0xe5 :: rest]
  | .live f => f.longEntries ++ [f.shortEntry]

def Slot.file : Slot → Option Stored
  | .deleted _ => none
  | .live f => some f

structure Volume where
  geometry : Geometry
  slots : List Slot

def Volume.entries (v : Volume) : List (List UInt8) := v.slots.flatMap Slot.entries

/-- The live archive files in directory order. -/
def Volume.archives (v : Volume) : List Stored := (v.slots.filterMap Slot.file).filter Stored.archive

/-- What follows the last character of a long name in its last part. -/
def Padding (pad : List UInt16) : Prop := pad = [] ∨ pad.length ≤ 12 ∧
    ∃ k,pad = 0 :: List.replicate k 0xffff

structure Stored.Named (f : Stored) : Prop where
  base_length : f.base.length ≤ 8
  ext_length : f.ext.length ≤ 3
  base_trim : f.base.getLast? ≠ some 0x20
  ext_trim : f.ext.getLast? ≠ some 0x20
  first : ∃ c ∈ f.base.head?,c ≠ 0 ∧ c ≠ 0xe5 ∧ c ≠ 0x20
  attributes : f.attributes &&& 0x3f ≠ 0x0f
  times : f.times.length = 13
  long_length : f.long.length ≤ 255
  long_units : ∀ u ∈ f.long,u ≠ 0 ∧ u ≠ 0xffff
  parts : ∀ part ∈ f.parts,part.length = 13
  padding : ∃ pad,Padding pad ∧ f.parts.flatten = f.long ++ pad ∧ (f.long = [] → pad = [])

/-- The table leads from each cluster of a chain to the next, and from the last one to an end
mark. -/
def Chained (image : List UInt8) (g : Geometry) : List Nat → Prop
  | [] => True
  | cluster :: rest =>
    2 ≤ cluster ∧ cluster < 0xfff7 ∧
      (∃ next < 2 ^ 16,Placed image (g.fatStart + 2 * cluster) (littleEndian 2 next) ∧
        match rest with
        | [] => 0xfff8 ≤ next
        | other :: _ => next = other) ∧
      Chained image g rest

/-- The bytes of a file are in its clusters, in the order of the chain. -/
def Contents (image : List UInt8) (g : Geometry) : List Nat → List UInt8 → Prop
  | [],_ => True
  | cluster :: rest,data =>
    Placed image (g.clusterStart cluster) (data.take g.clusterBytes) ∧ Contents image g rest
      (data.drop g.clusterBytes)

structure Stored.Laid (image : List UInt8) (g : Geometry) (f : Stored) : Prop where
  size : f.size < 2 ^ 32
  length : f.data.length = min f.size (f.chain.length * g.clusterBytes)
  chained : Chained image g f.chain
  contents : Contents image g f.chain f.data

/-- The image is this volume. A volume with this kind of table has fewer than 65525 clusters. -/
structure Volume.Holds (image : List UInt8) (v : Volume) : Prop where
  sectorSize : Placed image 0x0b (littleEndian 2 v.geometry.sectorSize)
  sectorPerCluster : Placed image 0x0d (littleEndian 1 v.geometry.sectorPerCluster)
  reservedSec : Placed image 0x0e (littleEndian 2 v.geometry.reservedSec)
  numberFats : Placed image 0x10 (littleEndian 1 v.geometry.numberFats)
  rootEntries : Placed image 0x11 (littleEndian 2 v.geometry.rootEntries)
  sectorPerFat : Placed image 0x16 (littleEndian 2 v.geometry.sectorPerFat)
  root : v.geometry.dataStart ≤ image.length
  clusters : image.length < v.geometry.dataStart + 65525 * v.geometry.clusterBytes
  count : v.entries.length ≤ v.geometry.rootEntries
  entries : Placed image v.geometry.rootStart v.entries.flatten
  mark : v.entries.length < v.geometry.rootEntries → Placed image
    (v.geometry.rootStart + 32 * v.entries.length) [0]
  deleted : ∀ rest,.deleted rest ∈ v.slots → rest.length = 31
  named : ∀ f,.live f ∈ v.slots → f.Named
  laid : ∀ f,.live f ∈ v.slots → f.Laid image v.geometry

end Mpss.Systools.FatVolume
