import Mpss.Library.Bytes

namespace Mpss.Vop.DevicePage
open Library.Bytes Function

/-- The sizes of `struct mic_bootparam`, `mic_device_desc`, `mic_vqconfig` and `mic_device_ctrl`. -/
def bootparamSize : Nat := 24
def deviceDescSize : Nat := 8
def vqconfigSize : Nat := 24
def deviceCtrlSize : Nat := 16

def MIC_DP_SIZE : Nat := 4096
def MIC_MAX_VRINGS : Nat := 4
def MIC_MAX_VRING_ENTRIES : Nat := 128
def MIC_MAX_DESC_BLK_SIZE : Nat := 256

/-- The device page, or another memory with a descriptor in it. -/
abbrev Page := Memory UInt8

variable (m : Page)

def type (d : Nat) : UInt8 := m d
def numVq (m : Page) (d : Nat) : Nat := (m (d + 1)).toNat
def featureLen (m : Page) (d : Nat) : Nat := (m (d + 2)).toNat
def configLen (m : Page) (d : Nat) : Nat := (m (d + 3)).toNat

/-- The type of a device that was removed, `-1` as a byte. -/
def removed : UInt8 := 0xff

def micDescSize (d : Nat) : Nat :=
  deviceDescSize + numVq m d * vqconfigSize + featureLen m d * 2 + configLen m d

def micAlignedDescSize (d : Nat) : Nat := (micDescSize m d + 7) / 8 * 8

def micTotalDescSize (d : Nat) : Nat := micAlignedDescSize m d + deviceCtrlSize

def micVqConfig (d i : Nat) : Nat := d + deviceDescSize + i * vqconfigSize

def vqNum (d i : Nat) : Nat := (m (micVqConfig d i + 16)).toNat +
    256 * (m (micVqConfig d i + 17)).toNat

variable (page : Page)

/-- The loop that finds the first free entry of the device page. -/
def findSlot (need : Nat) : Nat → Nat → Option Nat
  | 0,_ => none
  | fuel + 1,i =>
    if i < MIC_DP_SIZE - need then
      if type page i = 0 ∨ type page i = removed then some i else findSlot need fuel
        (i + micTotalDescSize page i)
    else none

def vopCopyDpEntry (page argp : Page) : Option (Page × Nat) :=
  if (List.range (numVq argp 0)).any (fun i => MIC_MAX_VRING_ENTRIES < vqNum argp 0 i) then none
  else
    (findSlot page (micTotalDescSize argp 0) MIC_DP_SIZE bootparamSize).map (fun devp =>
      (blit page devp (update argp 0 0) (micDescSize argp 0),devp))

def poke (ws : List (Nat × UInt8)) : Page := ws.foldl (fun m w => update m w.1 w.2) m

def vopInitDeviceCtrl (dc : Nat) : List (Nat × UInt8) :=
  [(dc + 8,0),(dc + 10,0),(dc + 9,0),(dc + 11,0),(dc + 12,0),(dc + 13,0xff),(dc + 14,0xff)]

/-- The address of every ring is stored, eight bytes each. -/
def ringAddresses (dd n : Nat) (addr : Nat → Nat → UInt8) : List (Nat × UInt8) :=
  (List.range n).flatMap (fun i => (List.range 8).map (fun j => (micVqConfig dd i + j,addr i j)))

structure Vdev where
  dd : Nat
  dc : Nat
deriving DecidableEq

def Vdev.stop (v : Vdev) : Nat := v.dc + deviceCtrlSize

/-- The request `MIC_VIRTIO_ADD_DEVICE`, when the rings and the interrupt can be had. -/
def vopVirtioAddDevice (page argp : Page) (addr : Nat → Nat → UInt8)
    (db : UInt8) : Option (Page × Vdev) :=
  if micAlignedDescSize argp 0 > MIC_MAX_DESC_BLK_SIZE ∨ numVq argp 0 > MIC_MAX_VRINGS then none
  else
    (vopCopyDpEntry page argp).map (fun (page,dd) =>
      let dc := dd + micAlignedDescSize page dd
      let page := poke page (vopInitDeviceCtrl dc)
      let page := poke page (ringAddresses dd (numVq page dd) addr)
      (poke page [(dc + 13,db),(dd,type argp 0)],⟨dd,dc⟩))

/-- The stores of `vop_dev_remove`, with those of `vop_virtio_device_reset`. -/
def vopDevRemove (v : Vdev) : List (Nat × UInt8) :=
  [(v.dc + 8,1),(v.dc + 8,0),(v.dc + 10,0),(v.dd + 4,0),(v.dc + 9,0),(v.dc + 11,1),(v.dd,removed)]

def vopVirtioDelDevice (v : Vdev) : Page :=
  poke (if type page v.dd ≠ removed then poke page (vopDevRemove v) else page) [(v.dd,removed)]

/-- The descriptors that the card's scan comes to, until the end of the list. -/
def vopScanDevices : Nat → Nat → List Nat
  | 0,_ => []
  | fuel + 1,i =>
    if i < MIC_DP_SIZE then
      if type page i = 0 then []
      else if type page i = removed then vopScanDevices fuel (i + micTotalDescSize page i)
      else i :: vopScanDevices fuel (i + micTotalDescSize page i)
    else []

structure State where
  page : Page
  vdevs : List Vdev

inductive Act
  | add (argp : Page) (addr : Nat → Nat → UInt8) (db : UInt8)
  | remove (v : Vdev)

def step (s : State) : Act → Option State
  | .add argp addr db =>
    (vopVirtioAddDevice s.page argp addr db).map (fun (page,v) => ⟨page,s.vdevs ++ [v]⟩)
  | .remove v => if v ∈ s.vdevs then some ⟨vopVirtioDelDevice s.page v,s.vdevs.erase v⟩ else none

end Mpss.Vop.DevicePage
