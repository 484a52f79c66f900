/-
Hazards: the eleven things an audit looks for, with the words and the weight
that a report gives them.
-/

import ScriptAudit.Finding

namespace ScriptAudit

inductive Hazard where
  | codeExecution (callee : Bytes)
  | stringTimer (callee : Bytes)
  | markupProperty (property : Bytes)
  | documentWrite (method : Bytes)
  | insecureRequest
  | looseEquality (operator : Bytes)
  | implicitGlobal (name : Bytes)
  | functionScopedVariable
  | loopConcatenation
  | oversizedFunction (statements : Nat)
  | unusedVariable (name : Bytes)
  deriving DecidableEq

namespace Hazard

def category : Hazard → Category
  | codeExecution _ => .security
  | stringTimer _ => .security
  | markupProperty _ => .security
  | documentWrite _ => .security
  | insecureRequest => .security
  | looseEquality _ => .error
  | implicitGlobal _ => .error
  | functionScopedVariable => .style
  | loopConcatenation => .performance
  | oversizedFunction _ => .complexity
  | unusedVariable _ => .performance

def severity : Hazard → Severity
  | codeExecution _ => .high
  | stringTimer _ => .high
  | markupProperty _ => .high
  | documentWrite _ => .high
  | insecureRequest => .medium
  | looseEquality _ => .medium
  | implicitGlobal _ => .high
  | functionScopedVariable => .medium
  | loopConcatenation => .medium
  | oversizedFunction _ => .medium
  | unusedVariable _ => .low

def message : Hazard → Bytes
  | codeExecution callee =>
      "Unsafe use of " ++ callee ++ "() — can execute arbitrary code"
  | stringTimer callee =>
      "Unsafe use of " ++ callee
        ++ " with string argument — similar to eval()"
  | markupProperty property =>
      "Potential XSS vulnerability using " ++ property
  | documentWrite method =>
      "Insecure use of document." ++ method ++ "() — can enable XSS attacks"
  | insecureRequest => "Using insecure HTTP protocol instead of HTTPS"
  | looseEquality operator =>
      "Unsafe equality comparison using " ++ operator ++ " instead of "
        ++ operator ++ "="
  | implicitGlobal name => "Potential implicit global variable: " ++ name
  | functionScopedVariable =>
      "Use of 'var' keyword — consider using 'let' or 'const' instead"
  | loopConcatenation =>
      "Inefficient string concatenation in loop — consider using "
        ++ "array.join() instead"
  | oversizedFunction statements =>
      "Function is too large (" ++ Bytes.decimal statements
        ++ " statements) — consider refactoring"
  | unusedVariable name => "Unused variable: " ++ name

def finding (hazard : Hazard) (position : Position) : Finding :=
  { category := hazard.category
    severity := hazard.severity
    message := hazard.message
    position := position }

end Hazard

end ScriptAudit
