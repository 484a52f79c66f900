/-
Reports as JSON values lose nothing. A reader of the list of findings gets back the
findings in their order: names determine categories and severities, and a number that
was cast to a signed integer is cast back. The counts of the summary are those of the
list beside it.
-/

import ScriptAudit.Proofs.Report.Summary
import ScriptAudit.Report.Json

namespace ScriptAudit

namespace Json

def member? (name : Bytes) : Json → Option Json
  | object fields => fields.lookup name
  | _ => none

def text? (name : Bytes) (value : Json) : Option Bytes :=
  match value.member? name with
  | some (string text) => some text
  | _ => none

def integer? (name : Bytes) (value : Json) : Option Int :=
  match value.member? name with
  | some (integer number) => some number
  | _ => none

/-- A signed integer of sixty-four bits, read as an unsigned one. -/
def word? (name : Bytes) (value : Json) : Option Nat :=
  (value.integer? name).map fun number : Int =>
    (number % Report.wordSize).toNat

end Json

def Category.ofName? (name : Bytes) : Option Category :=
  all.find? fun category => category.name == name

def Severity.ofName? (name : Bytes) : Option Severity :=
  all.find? fun severity => severity.name == name

theorem Category.count_all (category : Category) : all.count category = 1 := by
  cases category <;> decide

theorem Severity.count_all (severity : Severity) : all.count severity = 1 := by
  cases severity <;> decide

theorem Severity.ofName?_name (severity : Severity) :
    ofName? severity.name = some severity := by
  cases severity <;> decide

theorem Severity.name_injective {first second : Severity}
    (same : first.name = second.name) : first = second := by
  have found := ofName?_name first
  rw [same, ofName?_name] at found
  exact (Option.some.inj found).symm

namespace Finding

def ofJson? (entry : Json) : Option Finding := do
  let category ← (entry.text? "type").bind Category.ofName?
  let severity ← (entry.text? "severity").bind Severity.ofName?
  let message ← entry.text? "message"
  let line ← entry.word? "line"
  let column ← entry.word? "column"
  return ⟨category, severity, message, ⟨line, column⟩⟩

def FitsWords (finding : Finding) : Prop :=
  finding.position.line < Report.wordSize ∧
    finding.position.column < Report.wordSize

end Finding

namespace Report

theorem bmod_emod_toNat {number : Nat} (fits : number < wordSize) :
    (Int.bmod number wordSize % wordSize).toNat = number := by
  rw [Int.bmod_emod, Int.emod_eq_of_lt (Int.natCast_nonneg _) (by omega),
    Int.toNat_natCast]

theorem count_of_lt {number : Nat} (small : number < wordSize / 2) :
    count number = .integer number := by
  unfold wordSize at small
  rw [count, Int.bmod_eq_of_le_mul_two (by unfold wordSize; omega)
    (by unfold wordSize; omega)]

theorem ofJson?_findingValue {finding : Finding} (fits : finding.FitsWords) :
    Finding.ofJson? (findingValue finding) = some finding := by
  have category : ((findingValue finding).text? "type").bind Category.ofName? =
      some finding.category :=
    Category.find?_name finding.category
  have severity :
      ((findingValue finding).text? "severity").bind Severity.ofName? =
        some finding.severity :=
    Severity.ofName?_name finding.severity
  have line : (findingValue finding).word? "line" =
      some finding.position.line :=
    congrArg some (bmod_emod_toNat fits.1)
  have column : (findingValue finding).word? "column" =
      some finding.position.column :=
    congrArg some (bmod_emod_toNat fits.2)
  unfold Finding.ofJson?
  rw [category, severity, line, column]
  rfl

theorem mapM_ofJson? {findings : List Finding}
    (fit : ∀ finding ∈ findings, finding.FitsWords) :
    (findings.map findingValue).mapM Finding.ofJson? = some findings := by
  induction findings with
  | nil => rfl
  | cons finding rest inductionHypothesis =>
      rw [List.map_cons, List.mapM_cons,
        ofJson?_findingValue (fit finding (.head _)),
        inductionHypothesis fun other member => fit other (.tail _ member)]
      rfl

/-! ### Counts -/

def labelled (label : Bytes) (entries : List Json) (name : Bytes) : Nat :=
  entries.countP fun entry => entry.text? label == some name

/-- There is one count for each of the names, of the entries that have it under the
label, and each entry is counted once. -/
structure Tallies (label : Bytes) (names : List Bytes) (entries : List Json)
    (group : Json) : Prop where
  counts : group = .object (names.map fun name =>
    field name (.integer (labelled label entries name)))
  adds : (names.map (labelled label entries)).sum = entries.length

structure Summarizes (summary : Json) (entries : List Json) : Prop where
  total : summary.integer? "total" = some (entries.length : Int)
  bySeverity : ∃ group, summary.member? "bySeverity" = some group ∧
    Tallies "severity" (Severity.all.map Severity.name) entries group
  byKind : ∃ group, summary.member? "byKind" = some group ∧
    Tallies "type" (Category.all.map Category.name) entries group

section Groups

variable {κ : Type} [DecidableEq κ] {nameOf : κ → Bytes} {group : Finding → κ}
  {label : Bytes}

theorem labelled_eq_countP
    (injective : ∀ {first second}, nameOf first = nameOf second → first = second)
    (labels : ∀ finding,
      (findingValue finding).text? label = some (nameOf (group finding)))
    (findings : List Finding) (wanted : κ) :
    labelled label (findings.map findingValue) (nameOf wanted) =
      findings.countP (group · == wanted) := by
  rw [labelled, List.countP_map]
  apply List.countP_congr
  intro finding _
  rw [Function.comp_apply, labels, beq_iff_eq, beq_iff_eq, Option.some.injEq]
  exact ⟨injective, congrArg nameOf⟩

theorem tallies_of_groups
    (injective : ∀ {first second}, nameOf first = nameOf second → first = second)
    (labels : ∀ finding,
      (findingValue finding).text? label = some (nameOf (group finding)))
    {groups : List κ} (complete : ∀ wanted, groups.count wanted = 1)
    {findings : List Finding} (few : findings.length < wordSize / 2) :
    Tallies label (groups.map nameOf) (findings.map findingValue)
      (.object (groups.map fun wanted =>
        field (nameOf wanted) (count (findings.countP (group · == wanted))))) where
  counts := by
    rw [List.map_map]
    refine congrArg Json.object (List.map_congr_left fun wanted _ => ?_)
    have small : findings.countP (group · == wanted) < wordSize / 2 :=
      Nat.lt_of_le_of_lt List.countP_le_length few
    rw [Function.comp_apply, labelled_eq_countP injective labels,
      count_of_lt small]
  adds := by
    rw [List.map_map, List.length_map, ← sum_countP_eq_length group
      fun finding _ => complete (group finding)]
    congr 1
    exact List.map_congr_left fun wanted _ =>
      labelled_eq_countP injective labels findings wanted

end Groups

theorem severityFields_ofFindings (findings : List Finding) :
    severityFields (Summary.ofFindings findings) = Severity.all.map fun wanted =>
      field wanted.name (count (findings.countP (·.severity == wanted))) :=
  List.map_congr_left fun wanted _ => by
    rw [Summary.bySeverity_ofFindings]

theorem categoryFields_ofFindings (findings : List Finding) :
    categoryFields (Summary.ofFindings findings) = Category.all.map fun wanted =>
      field wanted.name (count (findings.countP (·.category == wanted))) :=
  List.map_congr_left fun wanted _ => by
    rw [Summary.byCategory_ofFindings]

theorem summarizes_summaryValue {findings : List Finding}
    (few : findings.length < wordSize / 2) :
    Summarizes (summaryValue (Summary.ofFindings findings))
      (findings.map findingValue) where
  total := by
    have total : (summaryValue (Summary.ofFindings findings)).member? "total" =
        some (count (Summary.ofFindings findings).total) :=
      rfl
    rw [Json.integer?, total, Summary.total_ofFindings, count_of_lt few,
      List.length_map]
  bySeverity := by
    refine ⟨.object (severityFields (Summary.ofFindings findings)), rfl, ?_⟩
    rw [severityFields_ofFindings]
    exact tallies_of_groups Severity.name_injective (fun _ => rfl)
      Severity.count_all few
  byKind := by
    refine ⟨.object (categoryFields (Summary.ofFindings findings)), rfl, ?_⟩
    rw [categoryFields_ofFindings]
    exact tallies_of_groups Category.name_injective (fun _ => rfl)
      Category.count_all few

end Report

open Report

/--
The report as a JSON value loses nothing, and its two parts agree. From the list of
entries the findings are read back in their order, whatever the messages hold and
wherever the findings stand. The summary gives the number of entries, and for all
severities and categories the number of entries that are labelled with them; each of
the two groups of numbers adds up to the number of entries.
-/
theorem value_lossless {findings : List Finding}
    (few : findings.length < wordSize / 2)
    (fit : ∀ finding ∈ findings, finding.FitsWords) :
    ∃ entries summary,
      (value findings).member? "issues" = some (.array entries) ∧
        (value findings).member? "summary" = some summary ∧
        entries.mapM Finding.ofJson? = some findings ∧
        Summarizes summary entries := by
  refine ⟨findings.map findingValue, summaryValue (Summary.ofFindings findings),
    rfl, rfl, ?_, ?_⟩
  · exact mapM_ofJson? fit
  · exact summarizes_summaryValue few

/-- A finding far away, with bytes in its message that are no text. -/
def remote : Finding :=
  { category := .complexity
    severity := .low
    message := [0xff, 0x0a, 0x22]
    position := ⟨wordSize - 1, wordSize / 2⟩ }

/-- The largest line is written as a negative number and read back. -/
theorem value_lossless_remote :
    (findingValue remote).integer? "line" = some (-1) ∧
      ([remote, remark .style].map findingValue).mapM Finding.ofJson? =
        some [remote, remark .style] := by
  have few : [remote, remark .style].length < wordSize / 2 := by decide
  have fit : ∀ finding ∈ [remote, remark .style], finding.FitsWords := by
    unfold Finding.FitsWords
    decide
  obtain ⟨entries, _, listed, _, read, _⟩ := value_lossless few fit
  obtain rfl : _ = entries := Json.array.inj (Option.some.inj listed)
  exact ⟨by decide +kernel, read⟩

end ScriptAudit
