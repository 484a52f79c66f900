/-
Appending code to a closed source does not disturb what is there: the program goes
on with what the appended code is by itself, some lines further down, and so do
the diagnostics. Of the findings, only those about unused variables can change,
because only they depend on the rest of the program.
-/

import ScriptAudit.Proofs.Audit.Relocation
import ScriptAudit.Proofs.Grammar.Appending

namespace ScriptAudit

open Grammar

/-- The occurrences of names decide about unused variables only. -/
theorem filter_findings_of_occurrences (occurrences others : Bytes → Nat)
    (insideLoop : Bool) (node : Node) :
    (Audit.findings occurrences insideLoop node).filter (·.severity != .low) =
      (Audit.findings others insideLoop node).filter (·.severity != .low) := by
  have unused (tally : Bytes → Nat) (content : Declarator) :
      (Audit.findings tally insideLoop (.declarator content)).filter
        (·.severity != .low) = [] := by
    simp only [Audit.findings, Audit.hazards, Audit.unusedVariable?]
    split
    · rfl
    · rfl
  cases node with
  | declarator content => rw [unused, unused]
  | expression content => cases content <;> rfl
  | statement content => cases content <;> rfl
  | _ => rfl

namespace Audit

def graver (content : Statement) : List Finding :=
  ((Node.statement content).walk
    (fun insideLoop node => insideLoop || node.isLoop) false).flatMap
      fun visit => (findings (fun _ => 0) visit.1 visit.2).filter
        (·.severity != .low)

end Audit

theorem filter_audit_severity (program : Program) :
    (audit program).filter (·.severity != .low) =
      program.body.flatMap Audit.graver := by
  rw [audit_eq_visits, Audit.visits, List.flatMap_assoc, List.filter_flatMap]
  congr 1
  funext content
  rw [List.filter_flatMap]
  congr 1
  funext visit
  exact filter_findings_of_occurrences _ _ _ _

/--
Appending code to a closed source does not disturb it, unless the code begins with
an alternate: the program and the diagnostics go on with those that the code has
by itself, as many lines further down as the source has, and so do the findings
other than those of low severity. A diagnostic moves with the token it found,
whose line is also in its words.
-/
theorem append_to_closed {front back : Bytes} (closed : Closed front)
    (noElse : begins isElse (significant back) = false) :
    (parse (front ++ back)).program.body =
        (parse front).program.body ++ (parse back).program.body.map
          (Statement.relocate (.down (front.count Bytes.newline))) ∧
      (parse (front ++ back)).diagnostics =
        (parse back).diagnostics.map
          (Diagnostic.relocate (.down (front.count Bytes.newline))) ∧
      (audit (parse (front ++ back)).program).filter (·.severity != .low) =
        (audit (parse front).program).filter (·.severity != .low)
          ++ ((audit (parse back).program).filter (·.severity != .low)).map
            (Finding.relocate (.down (front.count Bytes.newline))) := by
  rw [closed.parse_append back noElse]
  refine ⟨rfl, rfl, ?_⟩
  have moved : ((audit (parse back).program).filter (·.severity != .low)).map
      (Finding.relocate (.down (front.count Bytes.newline))) =
        (audit ((parse back).relocate
          (.down (front.count Bytes.newline))).program).filter
            (·.severity != .low) := by
    rw [Parsed.relocate, audit_relocate, List.filter_map]
    rfl
  rw [moved, filter_audit_severity, filter_audit_severity,
    filter_audit_severity, List.flatMap_append]

/-- A declaration, and then a comparison and a parenthesis out of place. -/
theorem append_to_closed_declaration :
    (parse (Bytes.ofString "var a;\n" ++ Bytes.ofString "a == b;\n)")).diagnostics =
        [{ problem := .unexpected, found := ⟨.rightParen, ")", ⟨3, 1⟩⟩ }] ∧
      (audit (parse (Bytes.ofString "var a;\n"
          ++ Bytes.ofString "a == b;\n)")).program).filter (·.severity != .low) =
        (audit (parse "var a;\n").program).filter (·.severity != .low)
          ++ ((audit (parse "a == b;\n)").program).filter
            (·.severity != .low)).map (Finding.relocate (.down 1)) := by
  have closed : Closed "var a;\n" := by
    constructor
    · decide +kernel
    · decide +kernel
    · intro token last
      have semicolon :
          (Token.Stream.ofTokens (tokenize "var a;\n")).tokens.getLast? =
            some ⟨.semicolon, ";", ⟨1, 6⟩⟩ := by
        decide +kernel
      rw [semicolon] at last
      cases last
      rfl
    · decide +kernel
  have noElse : begins isElse (significant "a == b;\n)") = false := by
    decide +kernel
  have lines : (Bytes.ofString "var a;\n").count Bytes.newline = 1 := by
    decide +kernel
  obtain ⟨_, diagnostics, findings⟩ := append_to_closed closed noElse
  rw [lines] at diagnostics findings
  exact ⟨diagnostics.trans (by decide +kernel), findings⟩

end ScriptAudit
