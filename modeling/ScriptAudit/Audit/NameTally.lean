/-
How often each name occurs.
-/

import ScriptAudit.Bytes
import Std.Data.HashMap

namespace ScriptAudit

abbrev NameTally := Std.HashMap Bytes Nat

namespace NameTally

def occurrences (tally : NameTally) (name : Bytes) : Nat :=
  tally.getD name 0

def add (tally : NameTally) (name : Bytes) : NameTally :=
  tally.insert name (tally.occurrences name + 1)

def ofNames (names : List Bytes) : NameTally :=
  names.foldl add ∅

theorem occurrences_foldl_add (tally : NameTally) (names : List Bytes)
    (name : Bytes) :
    (names.foldl add tally).occurrences name =
      tally.occurrences name + names.count name := by
  induction names generalizing tally with
  | nil => rfl
  | cons first rest inductionHypothesis =>
      rw [List.foldl_cons, inductionHypothesis, List.count_cons]
      by_cases same : first = name
      · subst same
        simp [occurrences, add]
        omega
      · simp [occurrences, add, Std.HashMap.getD_insert, same]

theorem occurrences_ofNames (names : List Bytes) (name : Bytes) :
    (ofNames names).occurrences name = names.count name := by
  rw [ofNames, occurrences_foldl_add]
  simp [occurrences]

end NameTally

end ScriptAudit
