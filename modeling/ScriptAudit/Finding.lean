/-
Findings: what an audit reports, how grave it is, and where it stands.
-/

import ScriptAudit.Position

namespace ScriptAudit

inductive Category where
  | security
  | error
  | performance
  | style
  | complexity
  deriving DecidableEq

namespace Category

def all : List Category :=
  [security, error, performance, style, complexity]

def name : Category → Bytes
  | security => "security"
  | error => "error"
  | performance => "performance"
  | style => "style"
  | complexity => "complexity"

end Category

inductive Severity where
  | high
  | medium
  | low
  deriving DecidableEq

namespace Severity

def all : List Severity :=
  [high, medium, low]

def name : Severity → Bytes
  | high => "high"
  | medium => "medium"
  | low => "low"

def label (severity : Severity) : Bytes :=
  severity.name.map Bytes.upper

end Severity

structure Finding where
  category : Category
  severity : Severity
  message : Bytes
  position : Position
  deriving DecidableEq

namespace Finding

/-- One line: `[SEVERITY] category: message at line L, column C`. -/
def line (finding : Finding) : Bytes :=
  "[" ++ finding.severity.label ++ "] " ++ finding.category.name ++ ": "
    ++ finding.message ++ " at line "
    ++ Bytes.decimal finding.position.line ++ ", column "
    ++ Bytes.decimal finding.position.column

end Finding

end ScriptAudit
