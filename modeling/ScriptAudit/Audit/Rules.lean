/-
The rules: for each hazard, the shape of the node that carries it.
-/

import ScriptAudit.Audit.Hazard
import ScriptAudit.Audit.StatementCount
import ScriptAudit.Tree.Expr

namespace ScriptAudit.Audit

def codeExecutors : List Bytes := ["eval", "Function", "execScript"]

def codeExecution? (callee : Expr) : Option Hazard := do
  let name ← callee.name?
  if codeExecutors.contains name then some (.codeExecution name) else none

def timers : List Bytes := ["setTimeout", "setInterval"]

def stringTimer? (callee : Expr) (arguments : List Expr) : Option Hazard := do
  let name ← callee.name?
  let _ ← arguments.head?.bind Expr.stringText?
  if timers.contains name then some (.stringTimer name) else none

def documentWriters : List Bytes := ["write", "writeln"]

/-- Only a method written with a point counts as a method of the document. -/
def documentWrite? : Expr → Option Hazard
  | .member object property false _ => do
      let method ← property.name?
      if object.name? = some (Bytes.ofString "document")
          ∧ documentWriters.contains method then
        some (.documentWrite method)
      else none
  | _ => none

def insecureScheme : Bytes := "http://"

/-- The second argument of a method named `open` is taken for an address. -/
def insecureRequest? (callee : Expr) (arguments : List Expr) :
    Option Hazard :=
  match callee with
  | .member _ property _ _ => do
      let address ← (arguments[1]?).bind Expr.stringText?
      if property.name? = some (Bytes.ofString "open")
          ∧ insecureScheme.isPrefixOf address then
        some .insecureRequest
      else none
  | _ => none

def markupProperties : List Bytes := ["innerHTML", "outerHTML"]

def markupProperty? (property : Expr) : Option Hazard := do
  let name ← property.name?
  if markupProperties.contains name then some (.markupProperty name) else none

def looseEqualities : List Bytes := ["==", "!="]

def looseEquality? (operator : Bytes) : Option Hazard :=
  if looseEqualities.contains operator then some (.looseEquality operator) else none

/-- Every bare name on the left counts, declared or not. -/
def implicitGlobal? (target : Expr) : Option Hazard :=
  target.name?.map .implicitGlobal

def loopConcatenation? (insideLoop : Bool) (operator : Bytes) (value : Expr) :
    Option Hazard :=
  if operator = "+=" ∧ value.stringText?.isSome ∧ insideLoop then
    some .loopConcatenation
  else none

def functionScopedVariable? (keyword : Bytes) : Option Hazard :=
  if keyword = "var" then some .functionScopedVariable else none

def functionLimit : Nat := 30

def oversizedFunction? (body : List Statement) : Option Hazard :=
  let statements := Statement.countAll body
  if functionLimit < statements then some (.oversizedFunction statements)
  else none

/-- The declaration itself is one occurrence of the name. -/
def unusedVariable? (occurrences : Bytes → Nat) (name : Bytes) :
    Option Hazard :=
  if occurrences name ≤ 1 then some (.unusedVariable name) else none

end ScriptAudit.Audit
