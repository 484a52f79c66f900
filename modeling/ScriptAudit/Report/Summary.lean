/-
Counts over a list of findings, taken in one pass.
-/

import ScriptAudit.Finding

namespace ScriptAudit

structure SeverityCounts where
  high : Nat
  medium : Nat
  low : Nat

namespace SeverityCounts

def zero : SeverityCounts :=
  { high := 0
    medium := 0
    low := 0 }

def add (counts : SeverityCounts) : Severity → SeverityCounts
  | .high => { counts with high := counts.high + 1 }
  | .medium => { counts with medium := counts.medium + 1 }
  | .low => { counts with low := counts.low + 1 }

def of (counts : SeverityCounts) : Severity → Nat
  | .high => counts.high
  | .medium => counts.medium
  | .low => counts.low

end SeverityCounts

structure CategoryCounts where
  security : Nat
  error : Nat
  performance : Nat
  style : Nat
  complexity : Nat

namespace CategoryCounts

def zero : CategoryCounts :=
  { security := 0
    error := 0
    performance := 0
    style := 0
    complexity := 0 }

def add (counts : CategoryCounts) : Category → CategoryCounts
  | .security => { counts with security := counts.security + 1 }
  | .error => { counts with error := counts.error + 1 }
  | .performance => { counts with performance := counts.performance + 1 }
  | .style => { counts with style := counts.style + 1 }
  | .complexity => { counts with complexity := counts.complexity + 1 }

def of (counts : CategoryCounts) : Category → Nat
  | .security => counts.security
  | .error => counts.error
  | .performance => counts.performance
  | .style => counts.style
  | .complexity => counts.complexity

end CategoryCounts

structure Summary where
  total : Nat
  severities : SeverityCounts
  categories : CategoryCounts

namespace Summary

/-- One finding adds to two counts. The total is known before the pass. -/
def record (summary : Summary) (finding : Finding) : Summary :=
  { summary with
    severities := summary.severities.add finding.severity
    categories := summary.categories.add finding.category }

def ofFindings (findings : List Finding) : Summary :=
  findings.foldl record
    { total := findings.length
      severities := .zero
      categories := .zero }

def bySeverity (summary : Summary) (severity : Severity) : Nat :=
  summary.severities.of severity

def byCategory (summary : Summary) (category : Category) : Nat :=
  summary.categories.of category

end Summary

end ScriptAudit
