import Mpss.Micctrl.Network

namespace Mpss.Proofs.MacsUnique
open Mpssconfig.Miclist (Name)
open Micctrl.Network

/-- A serial number of the documented form. -/
structure Serial (strtoul : Name → Nat) where
  lead : Char × Char
  year : Char
  tens : Char
  ones : Char
  number : Name
  years : 2 ≤ digit year ∧ digit year ≤ 6
  digits : 0 ≤ digit tens ∧ digit tens ≤ 9 ∧ 0 ≤ digit ones ∧ digit ones ≤ 9
  weeks : 1 ≤ digit tens * 10 + digit ones ∧ digit tens * 10 + digit ones ≤ 53
  small : strtoul number < 2 ^ 15

def Serial.week (s : Serial strtoul) : Int := digit s.tens * 10 + digit s.ones

def Serial.mac (s : Serial strtoul) (host : Bool) : Option (List Int) :=
  micGetMacFromSerial strtoul host
    (s.lead.1 :: s.lead.2 :: 'K' :: 'C' :: s.year :: s.tens :: s.ones :: s.number)

/-- Only the product of year and week is packed, into eight bits. -/
theorem mac_eq_iff (a b : Serial strtoul) : a.mac host = b.mac host' ↔
    strtoul a.number = strtoul b.number ∧ host = host' ∧
      (digit a.year - 1) * a.week % 256 = (digit b.year - 1) * b.week % 256 := by
  have ha := a.small
  have hb := b.small
  simp only [Serial.mac,micGetMacFromSerial,Serial.week,Option.some.injEq,List.cons.injEq,
    and_true,true_and]
  generalize (digit a.year - 1) * _ = p
  generalize (digit b.year - 1) * _ = q
  cases host <;> cases host' <;>
    simp only [Bool.false_eq_true,Bool.true_eq_false,if_false,if_true,true_and,false_and,and_false,
      iff_false] <;> omega

theorem macs_unique_iff (strtoul : Name → Nat) (a b : Serial strtoul) (host host' : Bool) :
    (a.mac host = b.mac host' →
      a.year = b.year ∧ a.week = b.week ∧ strtoul a.number = strtoul b.number ∧ host = host') ↔
    (strtoul a.number = strtoul b.number → host = host' →
      (digit a.year - 1) * a.week % 256 = (digit b.year - 1) * b.week % 256 →
        a.year = b.year ∧ a.week = b.week) := by
  rw [mac_eq_iff]
  exact ⟨fun h h1 h2 h3 => ⟨(h ⟨h1,h2,h3⟩).1,(h ⟨h1,h2,h3⟩).2.1⟩,
    fun h ⟨h1,h2,h3⟩ => ⟨(h h1 h2 h3).1,(h h1 h2 h3).2,h1,h2⟩⟩

/-- Week 2 of 2012 and week 1 of 2013. -/
theorem weeks_share_mac : ∃ a b : Serial fun _ => 1,a.mac false = b.mac false ∧ a.year ≠ b.year :=
  ⟨⟨('A','D'),'2','0','2',"00001".toList,by decide,by decide,by decide,by decide⟩,
    ⟨('A','D'),'3','0','1',"00001".toList,by decide,by decide,by decide,by decide⟩,by decide,by decide⟩

end Mpss.Proofs.MacsUnique
