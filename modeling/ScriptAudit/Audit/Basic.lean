/-
The audit of a program: the hazards of every node in pre-order, and at one node
in the order of the rules.
-/

import ScriptAudit.Audit.NameTally
import ScriptAudit.Audit.Rules
import ScriptAudit.Tree.Node

namespace ScriptAudit

namespace Node

def identifierName? : Node → Option Bytes
  | .expression content => content.name?
  | _ => none

def names (node : Node) : List Bytes :=
  node.preorder.filterMap identifierName?

def isLoop (node : Node) : Bool :=
  node.kind == .whileStatement || node.kind == .forStatement

end Node

namespace Audit

/-- The hazards of one node, given how often names occur in its program and
whether it stands inside a loop. -/
def hazards (occurrences : Bytes → Nat) (insideLoop : Bool) :
    Node → List Hazard
  | .expression (.call callee arguments _) =>
      (codeExecution? callee).toList ++ (stringTimer? callee arguments).toList
        ++ (documentWrite? callee).toList
        ++ (insecureRequest? callee arguments).toList
  | .expression (.member _ property _ _) => (markupProperty? property).toList
  | .expression (.binary operator _ _ _) => (looseEquality? operator).toList
  | .expression (.assignment operator target value _) =>
      (implicitGlobal? target).toList
        ++ (loopConcatenation? insideLoop operator value).toList
  | .statement (.declaration keyword _ _) =>
      (functionScopedVariable? keyword).toList
  | .statement (.function _ _ body _ _) => (oversizedFunction? body).toList
  | .declarator content =>
      (unusedVariable? occurrences content.identifier.name).toList
  | _ => []

def findings (occurrences : Bytes → Nat) (insideLoop : Bool) (node : Node) :
    List Finding :=
  (hazards occurrences insideLoop node).map fun hazard =>
    hazard.finding node.position

end Audit

/-- What a program is to be warned about. -/
def audit (program : Program) : List Finding :=
  let root := Node.program program
  let tally := NameTally.ofNames root.names
  (root.walk (fun insideLoop node => insideLoop || node.isLoop) false).flatMap
    fun (insideLoop, node) => Audit.findings tally.occurrences insideLoop node

end ScriptAudit
