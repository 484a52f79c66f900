/-
Reports as JSON values. How the text of such a value is laid out is left to a printer.
-/

import ScriptAudit.Report.Summary

namespace ScriptAudit

inductive Json where
  | integer (value : Int)
  | string (text : Bytes)
  | array (items : List Json)
  | object (fields : List (Bytes × Json))

namespace Report

def wordSize : Nat := 0x10000000000000000

/-- A number as a signed integer of sixty-four bits. -/
def count (number : Nat) : Json :=
  .integer (Int.bmod number wordSize)

def field (name : Bytes) (value : Json) : Bytes × Json :=
  (name, value)

def findingValue (finding : Finding) : Json :=
  .object
    [field "type" (.string finding.category.name),
      field "severity" (.string finding.severity.name),
      field "message" (.string finding.message),
      field "line" (count finding.position.line),
      field "column" (count finding.position.column)]

def severityFields (summary : Summary) : List (Bytes × Json) :=
  Severity.all.map fun severity =>
    field severity.name (count (summary.bySeverity severity))

def categoryFields (summary : Summary) : List (Bytes × Json) :=
  Category.all.map fun category =>
    field category.name (count (summary.byCategory category))

def summaryValue (summary : Summary) : Json :=
  .object
    [field "total" (count summary.total),
      field "bySeverity" (.object (severityFields summary)),
      field "byKind" (.object (categoryFields summary))]

def value (findings : List Finding) : Json :=
  .object
    [field "issues" (.array (findings.map findingValue)),
      field "summary" (summaryValue (Summary.ofFindings findings))]

def document (print : Json → Bytes) (findings : List Finding) : Bytes :=
  print (value findings) ++ [Bytes.newline]

end Report

end ScriptAudit
