import Mpss.Mpssconfig.Miclist

namespace Mpss.Micctrl.Network
open Mpssconfig.Miclist (Name)

def digit (c : Char) : Int := c.toNat - 48

/-- A text too short for the fields has no result. -/
def micGetMacFromSerial (strtoul : Name → Nat) (host : Bool) : Name → Option (List Int)
  | _ :: _ :: 'K' :: 'C' :: y :: w :: w' :: number =>
    let ww := digit w * 10 + digit w'
    let final := (strtoul number * 2 + (digit y - 1) * ww * 2 ^ 16 + if host then 1 else 0) % 2 ^ 64
    some [0x4c,0x79,0xba,final / 2 ^ 16 % 256,final / 2 ^ 8 % 256,final % 256]
  | _ => none

end Mpss.Micctrl.Network
