import Mpss.Library.Bytes

namespace Mpss.Vop.Copy
open Library.Bytes

def PAGE_SIZE : Nat := 4096

def VOP_INT_DMA_BUF_SIZE : Nat := 65536

def alignUp (n k : Nat) : Nat := (n + k - 1) / k * k
def roundDown (n k : Nat) : Nat := n / k * k

structure Dev where
  copyAlign : Nat
  disableDma : Bool
  iommu : Bool
  aper : Nat
  sgDmaAddress : Nat

variable (d : Dev)

def Dev.dmaAlignment : Nat := 2 ^ d.copyAlign

/-- `is_dma_copy_aligned` for odd addresses and an odd length. -/
def Dev.x200 : Prop := d.copyAlign = 0
deriving Decidable

/-- User memory, card memory and the buffer in between. -/
structure Mem (β : Type) where
  user : Memory β
  card : Memory β
  buf : Memory β

def vopDmaMap (daddr : Nat) : Nat :=
  if d.iommu then d.sgDmaAddress + roundDown daddr PAGE_SIZE else d.aper + daddr

def numPages (daddr len : Nat) : Nat := (daddr + len) / PAGE_SIZE - daddr / PAGE_SIZE + 1

variable (reach : Nat → Nat)

/-- `vop_sync_dma` into the buffer and out of it; `reach` gives the card address behind a DMA
address. -/
def dmaIn (daddr n : Nat) (m : Mem β) : Mem β :=
  { m with buf := blit m.buf 0 (fun j => m.card (reach (daddr + j))) n }

def dmaOut (daddr n : Nat) (m : Mem β) : Mem β :=
  { m with
    card := (List.range n).foldl (fun card j => Function.update card (reach (daddr + j))
      (m.buf j)) m.card }

/-- The loop of `vop_virtio_copy_to_user`, when the transfers and the copies succeed. -/
def toUserLoop : Nat → Mem β → Nat → Nat → Nat → Nat → Mem β
  | 0,m,_,_,_,_ => m
  | fuel + 1,m,ubuf,len,daddr,dmaOffset =>
    if len = 0 then m
    else
      let partlen := min len VOP_INT_DMA_BUF_SIZE
      let m := dmaIn reach daddr (alignUp partlen d.dmaAlignment) m
      let m := { m with
        user := blit m.user ubuf (fun j => m.buf (dmaOffset + j)) (partlen - dmaOffset) }
      toUserLoop fuel m (ubuf + partlen) (len - partlen) (daddr + partlen) 0

def vopVirtioCopyToUser (m : Mem β) (ubuf len daddr : Nat) : Mem β :=
  if d.disableDma then { m with user := blit m.user ubuf (fun j => m.card (daddr + j)) len }
  else
    let dmaOffset := daddr - roundDown daddr d.dmaAlignment
    let daddr := daddr - dmaOffset
    let len := len + dmaOffset
    let daddr := if d.x200 then vopDmaMap d daddr else daddr
    toUserLoop d reach len m ubuf len daddr dmaOffset

def fromUserLoop : Nat → Mem β → Nat → Nat → Nat → Mem β
  | 0,m,_,_,_ => m
  | fuel + 1,m,ubuf,len,daddr =>
    if len = 0 then m
    else
      let partlen := min len VOP_INT_DMA_BUF_SIZE
      let m := { m with buf := blit m.buf 0 (fun j => m.user (ubuf + j)) partlen }
      let m := dmaOut reach daddr (alignUp partlen d.dmaAlignment) m
      fromUserLoop fuel m (ubuf + partlen) (len - partlen) (daddr + partlen)

/-- A destination that is not aligned, or too short for the aligned length, is written without DMA.
After the loop nothing is left to copy. -/
def vopVirtioCopyFromUser (m : Mem β) (ubuf len daddr dlen : Nat) : Mem β :=
  if d.disableDma ∨ daddr % d.dmaAlignment ≠ 0 ∨ alignUp len d.dmaAlignment > dlen then
    { m with card := blit m.card daddr (fun j => m.user (ubuf + j)) len }
  else fromUserLoop d reach len m ubuf len (if d.x200 then vopDmaMap d daddr else daddr)

end Mpss.Vop.Copy
