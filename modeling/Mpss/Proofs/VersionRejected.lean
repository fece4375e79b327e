import Mpss.Mpssconfig.Parse

namespace Mpss.Proofs.VersionRejected

open Mpssconfig.Parse List

inductive Mark
  | read
  | missing
  | rejected
deriving DecidableEq

/-- The files read or missing and the `Version` lines rejected, in the order of the text. -/
def marks : Script → List Mark
  | .done => []
  | .version major minor rest => if mcVersion major minor then [.rejected] else marks rest
  | .other ret rest => if ret ≠ 0 then [] else marks rest
  | .includes found body rest =>
    (match found with
      | .missing => [.missing]
      | .unreadable => []
      | .read => .read :: marks body) ++ marks rest

/-- The last of them decides. -/
def verdict (valid : Option Bool) (ms : List Mark) : Option Bool :=
  (ms.getLast?.map (fun m => decide (m = .read))).or valid

theorem verdict_append (valid : Option Bool) (as bs : List Mark) :
    verdict valid (as ++ bs) = verdict (verdict valid as) bs := by
  unfold verdict
  rw [getLast?_append]
  cases bs.getLast? <;> rfl

theorem parseScript_marks (s : Script) (valid : Option Bool) :
    parseScript s valid = verdict valid (marks s) := by
  induction s generalizing valid with
  | done => rfl
  | version major minor rest ih =>
    rw [parseScript,marks]
    split
    · rfl
    · exact ih valid
  | other ret rest ih =>
    rw [parseScript,marks]
    split
    · rfl
    · exact ih valid
  | includes found body rest ihbody ihrest =>
    cases found with
    | missing | unreadable =>
      rw [parseScript,ihrest,marks,verdict_append]
      rfl
    | read =>
      rw [parseScript,ihrest,ihbody,marks,verdict_append,← singleton_append,verdict_append]
      rfl

/-- A rejected version is forgotten when a file is read after it, unless a later one is missing or
rejected. -/
theorem rejected_invalid_iff (found : Found) (body : Script) :
    (.rejected ∈ marks (.includes found body .done) → mpssParseConfig found body = some false) ↔
      (.rejected ∈ marks (.includes found body .done) →
        (marks (.includes found body .done)).getLast? ≠ some .read) := by
  rw [mpssParseConfig,parseScript_marks,verdict]
  apply imp_congr_right
  intro hr
  obtain ⟨m,hm⟩ := Option.isSome_iff_exists.mp (getLast?_isSome.mpr (ne_nil_of_mem hr))
  rw [hm]
  cases m <;> simp

/-- A file of version 0.9 is included before one that is accepted. -/
theorem rejected_then_valid :
    .rejected ∈ marks (.includes .read (.includes .read (.version 0 9 .done)
        (.includes .read (.version 1 1 .done) .done)) .done) ∧
      mpssParseConfig .read (.includes .read (.version 0 9 .done)
        (.includes .read (.version 1 1 .done) .done)) = some true := by decide

end Mpss.Proofs.VersionRejected
