import Mathlib.Algebra.Order.Ring.Int

namespace Mpss.Vop.Rings

/-- `post`: the host has run `vop_virtio_init_post` for the rings of the queues. -/
structure Vdev where
  usedAddressUpdated : Bool
  post : Bool
  vqs : List Nat
deriving DecidableEq

def vopBhHandler (vdev : Vdev) : Vdev :=
  if vdev.usedAddressUpdated then { vdev with usedAddressUpdated := false,post := true } else vdev

def vopDelVqs (vdev : Vdev) : Vdev := { vdev with vqs := [] }

/-- The value of `retry` when the loop ends. The bottom half runs before the reads that `ran` says,
or during the last sleep. -/
def poll (ran : Nat → Bool) (vdev : Vdev) (round : Nat) : Nat → Int × Vdev
  | 0 => (-1,if ran round then vopBhHandler vdev else vdev)
  | retry + 1 =>
    let vdev := if ran round then vopBhHandler vdev else vdev
    if !vdev.usedAddressUpdated then (retry,vdev) else poll ran vdev (round + 1) retry

def ENOENT : Int := 2
def ENODEV : Int := 19

/-- `findVq` gives the error of a queue that cannot be set up. -/
def vopFindVqs (numVq nvqs : Nat) (findVq : Nat → Option { err : Int // err < 0 })
    (ran : Nat → Bool) : Int × Vdev :=
  if numVq < nvqs then (-ENOENT,⟨false,false,[]⟩)
  else
    match (List.range nvqs).findSome? findVq with
    | some err => (err,vopDelVqs ⟨false,false,List.range nvqs⟩)
    | none =>
      let r := poll ran ⟨true,false,List.range nvqs⟩ 0 100
      if r.1 = 0 then (-ENODEV,vopDelVqs r.2) else (0,r.2)

end Mpss.Vop.Rings
