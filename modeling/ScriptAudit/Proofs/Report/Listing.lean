/-
Reports in plain text lose nothing. The line of a finding gives back all of the
finding: its severity and category from the left, its place from the right, and so
the message between them, whatever bytes it holds. A listing of messages that
stand on one line gives back its lines, and the messages of an audit do.
-/

import ScriptAudit.Proofs.Audit.Wording
import ScriptAudit.Proofs.Number.Decimal
import ScriptAudit.Report.Text

namespace ScriptAudit

open Bytes Report

theorem Severity.find?_label (severity : Severity) :
    all.find? (fun other => other.label == severity.label) = some severity := by
  cases severity <;> decide

theorem Severity.label_injective {first second : Severity}
    (same : first.label = second.label) : first = second := by
  have found := find?_label first
  rw [same, find?_label] at found
  exact (Option.some.inj found).symm

theorem Category.find?_name (category : Category) :
    all.find? (fun other => other.name == category.name) = some category := by
  cases category <;> decide

theorem Category.name_injective {first second : Category}
    (same : first.name = second.name) : first = second := by
  have found := find?_name first
  rw [same, find?_name] at found
  exact (Option.some.inj found).symm

def rightBracket : UInt8 := 0x5d

def colon : UInt8 := 0x3a

theorem Severity.label_facts (severity : Severity) :
    rightBracket ∉ severity.label ∧ newline ∉ severity.label := by
  cases severity <;> decide

theorem Category.name_facts (category : Category) :
    colon ∉ category.name ∧ newline ∉ category.name := by
  cases category <;> decide

namespace Finding

def heading (finding : Finding) : Bytes :=
  "[" ++ finding.severity.label ++ "] " ++ finding.category.name ++ ": "
    ++ finding.message

theorem heading_inj {first second : Finding}
    (same : first.heading = second.heading) :
    first.severity = second.severity ∧ first.category = second.category ∧
      first.message = second.message := by
  simp only [heading, List.append_assoc] at same
  obtain ⟨labels, afterLabel⟩ := append_mark_inj rightBracket (by decide)
    first.severity.label_facts.1 second.severity.label_facts.1
    (List.append_cancel_left same)
  obtain ⟨names, messages⟩ := append_mark_inj colon (by decide)
    first.category.name_facts.1 second.category.name_facts.1 afterLabel
  exact ⟨Severity.label_injective labels, Category.name_injective names,
    messages⟩

theorem eq_of_line_eq {first second : Finding}
    (same : first.line = second.line) : first = second := by
  -- The place is read from the right, since a message may look like a place.
  obtain ⟨beforeColumn, columns⟩ :=
    append_decimal_inj Token.space (by decide) (by decide) same
  obtain ⟨headings, lines⟩ :=
    append_decimal_inj Token.space (by decide) (by decide) beforeColumn
  obtain ⟨severities, categories, messages⟩ := heading_inj headings
  obtain ⟨category, severity, message, line, column⟩ := first
  cases severities
  cases categories
  cases messages
  cases lines
  cases columns
  rfl

theorem newline_not_mem_line {finding : Finding}
    (oneLine : newline ∉ finding.message) : newline ∉ finding.line := by
  have label := finding.severity.label_facts.2
  have name := finding.category.name_facts.2
  simp only [line, List.mem_append, label, name, oneLine,
    newline_not_mem_decimal, or_false]
  decide

end Finding

/-! ### Listings -/

namespace Report

def OneLine (findings : List Finding) : Prop :=
  ∀ finding ∈ findings, newline ∉ finding.message

theorem joinLines_eq_intercalate (lines : List Bytes) :
    joinLines lines = [newline].intercalate lines := by
  fun_induction joinLines lines with
  | case1 => rfl
  | case2 line => simp
  | case3 line next rest inductionHypothesis =>
      rw [List.intercalate_cons_cons, inductionHypothesis]
      simp

theorem splitOn_listing {findings : List Finding} (some : findings ≠ [])
    (oneLine : OneLine findings) :
    (listing findings).splitOn newline = findings.map Finding.line := by
  have lines : ∀ line ∈ findings.map Finding.line, newline ∉ line := by
    intro line member
    obtain ⟨finding, listed, rfl⟩ := List.mem_map.mp member
    exact Finding.newline_not_mem_line (oneLine finding listed)
  have joined : listing findings =
      [newline].intercalate (findings.map Finding.line) := by
    rw [← joinLines_eq_intercalate]
    cases findings with
    | nil => exact absurd rfl some
    | cons => rfl
  rw [joined]
  exact List.splitOn_intercalate newline lines (by simpa using some)

theorem head?_listing_cons (finding : Finding) (rest : List Finding) :
    (listing (finding :: rest)).head? = some 0x5b := by
  have opens : finding.line.head? = some 0x5b := rfl
  change (joinLines (finding.line :: rest.map Finding.line)).head? = _
  cases rest with
  | nil => exact opens
  | cons => exact head?_append_some opens

theorem listing_nil_ne_listing_cons (finding : Finding) (rest : List Finding) :
    listing [] ≠ listing (finding :: rest) := by
  intro same
  have first := head?_listing_cons finding rest
  rw [← same] at first
  revert first
  decide

/-- A listing of messages that stand on one line gives back the findings. -/
theorem eq_of_listing_eq {first second : List Finding}
    (oneLine : OneLine first) (alsoOneLine : OneLine second)
    (same : listing first = listing second) : first = second := by
  cases first with
  | nil =>
      cases second with
      | nil => rfl
      | cons finding rest =>
          exact absurd same (listing_nil_ne_listing_cons finding rest)
  | cons finding rest =>
      cases second with
      | nil => exact absurd same.symm (listing_nil_ne_listing_cons finding rest)
      | cons other others =>
          have lines := congrArg (List.splitOn newline) same
          rw [splitOn_listing (List.cons_ne_nil _ _) oneLine,
            splitOn_listing (List.cons_ne_nil _ _) alsoOneLine] at lines
          exact (List.map_inj_right fun _ _ => Finding.eq_of_line_eq).mp lines

end Report

/--
The report in plain text loses nothing of an audit. A line determines its finding,
whatever bytes the message holds. No message that is reported about a source holds
a newline, and among findings with such messages a listing determines the findings.
So two sources with the same listing have the same findings.
-/
theorem listing_lossless :
    (∀ first second : Finding, first.line = second.line → first = second) ∧
      (∀ source, OneLine (audit (parse source).program)) ∧
      (∀ first second : List Finding, OneLine first → OneLine second →
        listing first = listing second → first = second) ∧
      ∀ source other : Bytes,
        listing (audit (parse source).program) =
            listing (audit (parse other).program) →
          audit (parse source).program = audit (parse other).program := by
  have audited (source : Bytes) : OneLine (audit (parse source).program) :=
    fun _ reported => newline_not_mem_message_of_mem_audit reported
  refine ⟨fun _ _ => Finding.eq_of_line_eq, audited,
    fun _ _ => eq_of_listing_eq, ?_⟩
  intro source other same
  exact eq_of_listing_eq (audited source) (audited other) same

def deceptive : Finding :=
  { category := .style
    severity := .low
    message := "x at line 1, column 2"
    position := ⟨3, 4⟩ }

/-- A message that looks like a place does not hide the place, and sources that
differ only in what no rule looks at have the same listing. -/
theorem listing_lossless_deceptive :
    deceptive.line ≠ { deceptive with message := "x" }.line ∧
      listing [deceptive, deceptive] ≠ listing [deceptive] ∧
      audit (parse "eval(a)").program = audit (parse "eval(b)").program := by
  obtain ⟨lines, _, listings, audits⟩ := listing_lossless
  have oneLine : newline ∉ deceptive.message := by decide
  refine ⟨fun same => ?_, fun same => ?_, ?_⟩
  · exact absurd (lines _ _ same) (by decide)
  · have equal := listings _ _ (by simpa [OneLine] using oneLine)
      (by simpa [OneLine] using oneLine) same
    exact absurd equal (by decide)
  · exact audits _ _ (by decide +kernel)

end ScriptAudit
