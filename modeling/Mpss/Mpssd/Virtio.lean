import Mathlib.Algebra.Order.Ring.Int

namespace Mpss.Mpssd.Virtio

def SECTOR_SIZE : Nat := 512

def VRING_DESC_F_NEXT : Nat := 1
def VRING_DESC_F_WRITE : Nat := 2

def VIRTIO_BLK_F_SEG_MAX : Nat := 2
def VIRTIO_BLK_F_RO : Nat := 5

def VIRTIO_BLK_T_OUT : Nat := 1
def VIRTIO_BLK_T_GET_ID : Nat := 8

def eio : Int := 5
def enotsup : Int := 95

def asByte (n : Int) : Nat := (n % 256).toNat

/-- What the daemon reads of a `vring_desc`. -/
structure Desc where
  len : Nat
  flags : Nat
  next : Nat

variable (d : Desc)

def Desc.flag (f : Nat) : Bool := d.flags &&& f != 0

/-- The descriptor table that the card writes, and the memory behind it. -/
abbrev Table := Nat → Desc

def nextDesc : Nat := if d.flag VRING_DESC_F_NEXT then d.next else 2 ^ 32 - 1

structure DevPage where
  hostFeatures : Nat
  segMax : Nat
  capacity : Nat

/-- The device page of a block device whose ring has `entries` descriptors. -/
def virtblkDevPageInit (entries : Nat) (readOnly : Bool) : DevPage where
  hostFeatures := 1 <<< VIRTIO_BLK_F_SEG_MAX ||| if readOnly then 1 <<< VIRTIO_BLK_F_RO else 0
  segMax := entries - 2
  capacity := 0

def setBackendSize (page : DevPage) (size : Nat) : DevPage :=
  { page with capacity := size / SECTOR_SIZE + if size % SECTOR_SIZE ≠ 0 then 1 else 0 }

/-- The image of a block device in the address space of the daemon. -/
structure Backend where
  addr : Nat
  size : Nat
  protWrite : Bool
  fits : addr + size < 2 ^ 64

structure Device where
  readOnly : Bool
  page : DevPage
  backend : Backend

/-- `open_backend` opens the file with `O_RDWR` and maps it with `PROT_READ | PROT_WRITE` in both
modes. -/
def openBackend (entries : Nat) (readOnly : Bool) (addr size : Nat) (fits : addr + size < 2 ^ 64) :
    Device where
  readOnly := readOnly
  page := setBackendSize (virtblkDevPageInit entries readOnly) size
  backend := ⟨addr,size,true,fits⟩

structure Outhdr where
  type : Nat
  sector : Nat

/-- How a copy ioctl ends: what it returns and how many bytes it moved. -/
structure Copied where
  ret : Int
  outLen : Nat

/-- One request: the table, the head in the available ring, the header in card memory, and how the
ioctls end. -/
structure Request where
  table : Table
  head : Nat
  hdr : Outhdr
  readHeader : Int
  transfer : Copied

/-- A header must have its own length, be followed by something and be readable. -/
def headerErrorCheck : Nat :=
  if d.len ≠ 16 then asByte (-eio)
  else if !d.flag VRING_DESC_F_NEXT then asByte (-eio)
  else if d.flag VRING_DESC_F_WRITE then asByte (-eio)
  else 0

def statusErrorCheck : Nat := if d.len ≠ 1 then asByte (-eio) else 0

structure Iov where
  base : Nat
  len : Nat

/-- The loop over the buffer elements, cut off after `fuel` turns: the entries stored, whose number
is compared with nothing, and the descriptor that ended it. -/
def bufferElements (t : Table) : Nat → Nat → Nat → List Iov × Option Desc
  | 0,_,_ => ([],none)
  | fuel + 1,i,fos =>
    let desc := t i
    if desc.flag VRING_DESC_F_NEXT then
      let rest := bufferElements t fuel (nextDesc desc) ((fos + desc.len) % 2 ^ 64)
      (⟨fos,desc.len⟩ :: rest.1,rest.2)
    else ([],some desc)

/-- `hdr.type & ~(VIRTIO_BLK_T_OUT | VIRTIO_BLK_T_GET_ID)` is zero. -/
def supported (type : Nat) : Bool :=
  type &&& (2 ^ 32 - 1 - (VIRTIO_BLK_T_OUT ||| VIRTIO_BLK_T_GET_ID)) == 0

/-- The status of a request after its transfer, by the overwrites of the source. -/
def statusOf (r : Request) (last : Desc) : Nat :=
  let status := 0
  let status :=
    if supported r.hdr.type then
      if r.transfer.ret < 0 ∧ status ≠ 0 then asByte r.transfer.ret else status
    else asByte (-enotsup)
  if status ≠ 0 then statusErrorCheck last else status

/-- Bytes that the host touches during a transfer: it writes them, or only reads them. -/
structure Access where
  base : Nat
  len : Nat
  write : Bool

/-- `_vop_virtio_copy` on `riov` bytes from the card and `wiov` bytes to it: every entry takes what
is left of the first before the second. -/
def vopVirtioCopy : Nat → Nat → List Iov → List Access
  | _,_,[] => []
  | riov,wiov,v :: iovs =>
    let fromCard := min v.len riov
    let toCard := min (v.len - fromCard) wiov
    let riov := riov - fromCard
    let wiov := wiov - toCard
    ⟨v.base,fromCard,true⟩ :: ⟨v.base + fromCard,toCard,false⟩ ::
      if riov = 0 ∧ wiov = 0 then [] else vopVirtioCopy riov wiov iovs

/-- The readable and the writable bytes of a chain, as the driver collects them behind the
header. -/
def collect (t : Table) : Nat → Nat → Nat × Nat
  | 0,_ => (0,0)
  | fuel + 1,i =>
    let desc := t i
    let rest := if desc.flag VRING_DESC_F_NEXT then collect t fuel desc.next else (0,0)
    if desc.flag VRING_DESC_F_WRITE then (rest.1,rest.2 + desc.len) else (rest.1 + desc.len,rest.2)

/-- What a request led to; `handed` is the argument of `transfer_blocks`, if it was called. -/
structure Served where
  stored : List Iov
  handed : Option (List Iov)
  accesses : List Access
  status : Option Nat

def nothing : Served := ⟨[],none,[],none⟩

/-- One request in `virtio_block`. A refused header ends the thread, an unreadable one leaves the
request where it is, and a chain without an end is never left. -/
def virtioBlock (b : Backend) (r : Request) (fuel : Nat) : Served :=
  let desc := r.table r.head
  if headerErrorCheck desc ≠ 0 then nothing
  else if r.readHeader < 0 then nothing
  else
    let fos := (b.addr + r.hdr.sector * SECTOR_SIZE) % 2 ^ 64
    let bufferDescIdx := nextDesc desc
    match bufferElements r.table fuel bufferDescIdx fos with
    | (iovs,none) => { nothing with stored := iovs }
    | (iovs,some last) =>
      if supported r.hdr.type then
        let kiovs := collect r.table fuel bufferDescIdx
        ⟨iovs,some iovs,vopVirtioCopy kiovs.1 kiovs.2 iovs,some (statusOf r last)⟩
      else ⟨iovs,none,[],some (statusOf r last)⟩

end Mpss.Mpssd.Virtio
