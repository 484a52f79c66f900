/-
Audits of programs put together. All rules but one look at a node, at what is below
it and at the loops above it, so what they report stays as it is. The rule about
unused variables counts the names of the whole program: what it says of one part is
withdrawn exactly if the name occurs in the other part.
-/

import ScriptAudit.Proofs.Audit.UnusedVariable
import ScriptAudit.Proofs.Audit.Walker

namespace ScriptAudit

theorem Node.names_program (program : Program) :
    (Node.program program).names =
      program.body.flatMap fun content => (Node.statement content).names := by
  have unnamed : (Node.program program).identifierName? = none :=
    rfl
  have children : (Node.program program).children =
      program.body.map .statement :=
    rfl
  rw [names_eq, unnamed, children, List.flatMap_map]
  rfl

theorem Program.occurrences_append (front back : List Statement)
    (name : Bytes) :
    Program.occurrences ⟨front ++ back⟩ name =
      Program.occurrences ⟨front⟩ name + Program.occurrences ⟨back⟩ name := by
  simp only [occurrences, NameTally.occurrences_ofNames, Node.names_program,
    List.flatMap_append, List.count_append]

/-- Only the rule about unused variables reports with low severity, and its words
end with the name. -/
theorem unusedVariable_isReportedBy {hazard : Hazard} {name : Bytes}
    {place : Position} :
    (Hazard.unusedVariable name).isReportedBy (hazard.finding place) = true ↔
      hazard = .unusedVariable name := by
  rw [Hazard.isReportedBy, beq_iff_eq]
  constructor
  · intro same
    have severity := congrArg Finding.severity same
    have message : hazard.message = (Hazard.unusedVariable name).message :=
      congrArg Finding.message same
    cases hazard with
    | unusedVariable other => exact congrArg _ (List.append_cancel_left message)
    | _ => cases severity
  · rintro rfl
    rfl

/-- Whether a finding says of one of the names that it is an unused variable. -/
def Finding.tellsUnused (names : List Bytes) (finding : Finding) : Bool :=
  names.any fun name => (Hazard.unusedVariable name).isReportedBy finding

theorem tellsUnused_finding {names : List Bytes} {hazard : Hazard}
    {place : Position} :
    (hazard.finding place).tellsUnused names = true ↔
      ∃ name ∈ names, hazard = .unusedVariable name := by
  simp only [Finding.tellsUnused, List.any_eq_true, unusedVariable_isReportedBy]

namespace Audit

theorem hazards_of_undeclared {node : Node} (undeclared : node.declarator? = none)
    (occurrences others : Bytes → Nat) (insideLoop : Bool) :
    hazards occurrences insideLoop node = hazards others insideLoop node := by
  cases node with
  | declarator content => cases undeclared
  | expression content => cases content <;> rfl
  | statement content => cases content <;> rfl
  | _ => rfl

theorem not_tellsUnused_of_undeclared {occurrences : Bytes → Nat}
    {insideLoop : Bool} {node : Node} {finding : Finding}
    (undeclared : node.declarator? = none)
    (member : finding ∈ findings occurrences insideLoop node)
    (names : List Bytes) : finding.tellsUnused names = false := by
  obtain ⟨hazard, carried, rfl⟩ := List.mem_map.mp member
  rw [Bool.eq_false_iff]
  intro told
  obtain ⟨name, _, rfl⟩ := tellsUnused_finding.mp told
  cases mem_hazards_iff.mp carried
  cases undeclared

theorem findings_declarator (occurrences : Bytes → Nat) (insideLoop : Bool)
    (content : Declarator) :
    findings occurrences insideLoop (.declarator content) =
      if occurrences content.identifier.name ≤ 1 then
        [(Hazard.unusedVariable content.identifier.name).finding content.position]
      else [] := by
  simp only [findings, hazards, unusedVariable?]
  split <;> rfl

/-- Further occurrences of names withdraw what is said of these names and nothing
else, provided that each declared name has been counted where it is declared. -/
theorem findings_of_more {occurrences : Bytes → Nat} {node : Node}
    (counted : ∀ content ∈ node.declarator?,
      0 < occurrences content.identifier.name)
    (names : List Bytes) (insideLoop : Bool) :
    findings (fun name => occurrences name + names.count name) insideLoop node =
      (findings occurrences insideLoop node).filter
        fun finding => !finding.tellsUnused names := by
  cases found : node.declarator? with
  | none =>
      have kept : ∀ finding ∈ findings occurrences insideLoop node,
          (!finding.tellsUnused names) = true := by
        intro finding member
        rw [not_tellsUnused_of_undeclared found member names]
        rfl
      rw [List.filter_eq_self.mpr kept, findings, findings,
        hazards_of_undeclared found]
  | some content =>
      have positive := counted content found
      obtain rfl := Node.declarator?_eq_some.mp found
      have told : Finding.tellsUnused names
          ((Hazard.unusedVariable content.identifier.name).finding
            content.position) = decide (content.identifier.name ∈ names) := by
        rw [Bool.eq_iff_iff, tellsUnused_finding, decide_eq_true_eq]
        simp
      rw [findings_declarator, findings_declarator]
      by_cases used : content.identifier.name ∈ names
      -- The declaration itself has been counted, so this is one occurrence too many.
      · have again := List.count_pos_iff.mpr used
        have often : ¬occurrences content.identifier.name +
            names.count content.identifier.name ≤ 1 := by
          omega
        rw [if_neg often]
        split
        · simp [told, used]
        · rfl
      · rw [List.count_eq_zero.mpr used, Nat.add_zero]
        split
        · simp [told, used]
        · rfl

theorem findings_visits_of_more (body : List Statement) (names : List Bytes) :
    ((visits body).flatMap fun visit =>
      findings (fun name => Program.occurrences ⟨body⟩ name + names.count name)
        visit.1 visit.2) =
      (audit ⟨body⟩).filter fun finding => !finding.tellsUnused names := by
  rw [audit_eq_visits, List.filter_flatMap]
  apply List.flatMap_congr
  intro visit visited
  apply findings_of_more
  intro content found
  rw [Option.mem_def, Node.declarator?_eq_some] at found
  have present : visit.2 ∈ (Node.program ⟨body⟩).preorder :=
    mem_preorder_of_mem_visits visited
  rw [found] at present
  exact occurrences_pos_of_mem_declarators (Node.mem_declarators.mpr present)

end Audit

/--
The audit of two lists of statements put together is that of the first list, less
what it says of unused variables whose names occur in the second list, and then that
of the second list, less what it says of those whose names occur in the first list.
-/
theorem audit_concatenation (front back : List Statement) :
    audit ⟨front ++ back⟩ =
      ((audit ⟨front⟩).filter fun finding =>
        !finding.tellsUnused (Node.program ⟨back⟩).names) ++
      (audit ⟨back⟩).filter fun finding =>
        !finding.tellsUnused (Node.program ⟨front⟩).names := by
  have fromFront (name : Bytes) :
      Program.occurrences ⟨front ++ back⟩ name =
        Program.occurrences ⟨front⟩ name +
          (Node.program ⟨back⟩).names.count name := by
    rw [Program.occurrences_append, ← NameTally.occurrences_ofNames]
    rfl
  have fromBack (name : Bytes) :
      Program.occurrences ⟨front ++ back⟩ name =
        Program.occurrences ⟨back⟩ name +
          (Node.program ⟨front⟩).names.count name := by
    rw [Program.occurrences_append, ← NameTally.occurrences_ofNames,
      Nat.add_comm]
    rfl
  have split : Audit.visits (front ++ back) =
      Audit.visits front ++ Audit.visits back :=
    List.flatMap_append
  rw [audit_eq_visits, split, List.flatMap_append]
  congr 1
  · rw [funext fromFront]
    exact Audit.findings_visits_of_more front _
  · rw [funext fromBack]
    exact Audit.findings_visits_of_more back _

end ScriptAudit
