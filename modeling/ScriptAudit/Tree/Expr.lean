/-
Expressions. Each node keeps the place of its leftmost token, and operators
keep the spelling they had in the source.
-/

import ScriptAudit.Position
import ScriptAudit.Number.Binary64

namespace ScriptAudit

structure Identifier where
  name : Bytes
  position : Position
  deriving DecidableEq

inductive LiteralValue where
  | null
  | boolean (value : Bool)
  | number (value : Binary64)
  | string (text : Bytes)
  deriving DecidableEq

structure Literal where
  value : LiteralValue
  raw : Bytes
  position : Position
  deriving DecidableEq

inductive Fixity where
  | before
  | after
  deriving DecidableEq

mutual

inductive Expr where
  | identifier (identifier : Identifier)
  | literal (literal : Literal)
  | binary (operator : Bytes) (left right : Expr) (position : Position)
  | unary (operator : Bytes) (fixity : Fixity) (operand : Expr)
      (position : Position)
  | assignment (operator : Bytes) (target value : Expr) (position : Position)
  | call (callee : Expr) (arguments : List Expr) (position : Position)
  | member (object property : Expr) (computed : Bool) (position : Position)
  | array (elements : List Expr) (position : Position)
  | object (properties : List Property) (position : Position)

inductive Property where
  | entry (key value : Expr) (position : Position)

end

namespace Property

def key : Property → Expr
  | entry key _ _ => key

def value : Property → Expr
  | entry _ value _ => value

def position : Property → Position
  | entry _ _ position => position

end Property

namespace Expr

def position : Expr → Position
  | .identifier ⟨_, position⟩ => position
  | .literal ⟨_, _, position⟩ => position
  | .binary _ _ _ position => position
  | .unary _ _ _ position => position
  | .assignment _ _ _ position => position
  | .call _ _ position => position
  | .member _ _ _ position => position
  | .array _ position => position
  | .object _ position => position

def name? : Expr → Option Bytes
  | .identifier ⟨name, _⟩ => some name
  | _ => none

def stringText? : Expr → Option Bytes
  | .literal ⟨.string text, _, _⟩ => some text
  | _ => none

end Expr

end ScriptAudit
