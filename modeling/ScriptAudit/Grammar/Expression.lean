/-
The expression grammar.

Each production below takes the production for a whole expression as `nested`,
for the expressions between brackets and to the right of an assignment. The
recursive definition at the end ties them together.
-/

import ScriptAudit.Grammar.Production
import ScriptAudit.Number.Numeral
import ScriptAudit.Tree.Expr

namespace ScriptAudit.Grammar

open Production

def identifierOf (token : Token) : Identifier :=
  { name := token.lexeme
    position := token.position }

def literalValue? (token : Token) : Option LiteralValue :=
  match token.kind with
  | .number => some (.number (Numeral.read token.lexeme).value)
  | .string => some (.string token.lexeme)
  | .boolean => some (.boolean (token.lexeme == Bytes.ofString "true"))
  | .null => some .null
  | _ => none

def literal? (token : Token) : Option Literal :=
  (literalValue? token).map fun value =>
    { value := value
      raw := token.lexeme
      position := token.position }

/-- The key of an object entry is an identifier or a string. -/
def propertyKey : Production Expr :=
  onNext (fail (.expected .propertyName)) fun token =>
    match token.kind, literal? token with
    | .identifier, _ => taking (.identifier (identifierOf token))
    | .string, some literal => taking (.literal literal)
    | _, _ => fail (.expected .propertyName)

def property (nested : Production Expr) : Production Property := do
  let key ← propertyKey
  let _ ← expect .colon
  let value ← nested
  return .entry key value key.position

/-- An expression in parentheses stands for itself. -/
def parenthesized (nested : Production Expr) : Production Expr := do
  advance
  let inner ← nested
  let _ ← expect .rightParen
  return inner

def array (budget : Nat) (nested : Production Expr) (opening : Token) :
    Production Expr := advancing do
  advance
  let elements ← enclosed budget .rightBracket nested
  return .array elements opening.position

def object (budget : Nat) (nested : Production Expr) (opening : Token) :
    Production Expr := advancing do
  advance
  let properties ← enclosed budget .rightBrace (property nested)
  return .object properties opening.position

def primaryAt (budget : Nat) (nested : Production Expr) (token : Token) :
    Production Expr :=
  match token.kind with
  | .identifier => taking (.identifier (identifierOf token))
  | .leftParen => parenthesized nested
  | .leftBracket => array budget nested token
  | .leftBrace => object budget nested token
  | _ =>
      match literal? token with
      | some literal => taking (.literal literal)
      | none => fail .unexpected

def primary (budget : Nat) (nested : Production Expr) : Production Expr :=
  advancing (onNext (fail .unexpected) (primaryAt budget nested))

def opensAccess (token : Token) : Bool :=
  token.kind == .dot || token.kind == .leftBracket || token.kind == .leftParen

/-- A member by name, a member by index, or a call. -/
def access (budget : Nat) (nested : Production Expr) (target : Expr)
    (opening : Token) : Production Expr :=
  match opening.kind with
  | .dot => do
      let name ← expect .identifier
      return .member target (.identifier (identifierOf name)) false
        target.position
  | .leftBracket => do
      let index ← nested
      let _ ← expect .rightBracket
      return .member target index true target.position
  | _ => do
      let arguments ← enclosed budget .rightParen nested
      return .call target arguments target.position

def updates : List Bytes := ["++", "--"]

/-- A primary expression, its accesses, and at most one update after them. -/
def updated (budget : Nat) (nested : Production Expr) : Production Expr :=
  advancing do
    let first ← primary budget nested
    let operand ← extend opensAccess (access budget nested) budget first
    match ← readIf fun token => token.isSpelled .unary updates with
    | none => return operand
    | some token => return .unary token.lexeme .after operand operand.position

/-- Any number of operators before the operand, the innermost last. -/
def unary (operand : Production Expr) : (budget : Nat) → Production Expr
  | 0 => exhausted
  | budget + 1 => advancing <| onNext operand fun token =>
      if token.kind = .unary then do
        advance
        let value ← unary operand budget
        return .unary token.lexeme .before value token.position
      else
        operand

/-! ### Operators between two operands -/

/-- Operators of one rank, which group to the left. -/
structure Rank where
  kind : Token.Kind
  spellings : List Bytes

/-- The ranks from the loosest to the tightest. -/
def ranks : List Rank :=
  [⟨.logical, ["||"]⟩,
    ⟨.logical, ["&&"]⟩,
    ⟨.comparison, ["==", "!=", "===", "!=="]⟩,
    ⟨.comparison, ["<", ">", "<=", ">="]⟩,
    ⟨.arithmetic, ["+", "-"]⟩,
    ⟨.arithmetic, ["*", "/", "%"]⟩]

def Rank.admits (rank : Rank) (token : Token) : Bool :=
  token.isSpelled rank.kind rank.spellings

def joined (operand : Production Expr) (left : Expr) (operator : Token) :
    Production Expr := do
  let right ← operand
  return .binary operator.lexeme left right left.position

def binary (budget : Nat) (operand : Production Expr) :
    List Rank → Production Expr
  | [] => operand
  | rank :: tighter => advancing do
      let first ← binary budget operand tighter
      extend rank.admits (joined (binary budget operand tighter)) budget first

/-- Assignments group to the right; the target may be any expression. All of the
tokens may be operators before an operand, and the budget is only as much as there
are after the first. -/
def assignment (budget : Nat) (nested : Production Expr) : Production Expr :=
  advancing do
    let target ← binary budget (unary (updated budget nested) (budget + 1)) ranks
    match ← readIf fun token => token.kind == .assignment with
    | none => return target
    | some operator =>
        let value ← nested
        return .assignment operator.lexeme target value target.position

/-- An expression, within a budget that exceeds the number of tokens left. -/
def expression : (budget : Nat) → Production Expr
  | 0 => exhausted
  | budget + 1 => delayed fun _ => assignment budget (expression budget)

end ScriptAudit.Grammar
