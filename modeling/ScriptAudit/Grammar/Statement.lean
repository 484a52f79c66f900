/-
The statement grammar. As for expressions, `nested` is the production for the
statements inside a statement, and one definition ties them together. Behind it
stands what is skipped where no statement can be read.
-/

import ScriptAudit.Grammar.Expression
import ScriptAudit.Tree.Statement

namespace ScriptAudit.Grammar

open Production

def declarator (budget : Nat) : Production Declarator := advancing do
  let name ← expect .identifier
  let init ←
    match ← readIf fun token => token.isSpelled .assignment ["="] with
    | none => pure none
    | some _ => some <$> expression budget
  return { identifier := identifierOf name
           init := init
           position := name.position }

def declaration (budget : Nat) (keyword : Token) : Production Statement :=
  advancing do
    advance
    let declarators ← separated (declarator budget) budget
    let _ ← skips .semicolon
    return .declaration keyword.lexeme declarators keyword.position

/-- A return without an argument stands before a semicolon, a closing brace,
or the end. -/
def returnArgument (budget : Nat) : Production (Option Expr) := do
  if (← sees .semicolon) || (← sees .rightBrace) || (← seesEnd) then
    return none
  else
    some <$> expression budget

def returning (budget : Nat) (keyword : Token) : Production Statement :=
  advancing do
    advance
    let argument ← returnArgument budget
    let _ ← skips .semicolon
    return .returning argument keyword.position

def expressionStatement (budget : Nat) : Production Statement := advancing do
  let value ← expression budget
  let _ ← skips .semicolon
  return .expression value value.position

/-- The statements between braces, and the place of the opening brace. -/
def block (budget : Nat) (nested : Production Statement) :
    Production (List Statement × Position) := advancing do
  let opening ← expect .leftBrace
  let body ← itemsUntil .rightBrace nested budget
  let _ ← expect .rightBrace
  return (body, opening.position)

def blockStatement (budget : Nat) (nested : Production Statement) :
    Production Statement := do
  let (body, position) ← block budget nested
  return .block body position

def function (budget : Nat) (nested : Production Statement)
    (keyword : Token) : Production Statement := advancing do
  advance
  let name ← expect .identifier
  let _ ← expect .leftParen
  let parameters ← enclosed budget .rightParen (expect .identifier)
  let (body, bodyPosition) ← block budget nested
  return .function (identifierOf name) (parameters.map identifierOf) body
    bodyPosition keyword.position

/-- An alternate belongs to the nearest conditional that can take it. -/
def conditional (budget : Nat) (nested : Production Statement)
    (keyword : Token) : Production Statement := advancing do
  advance
  let _ ← expect .leftParen
  let test ← expression budget
  let _ ← expect .rightParen
  let consequent ← nested
  match ← readIf fun token => token.isSpelled .keyword ["else"] with
  | none => return .ifThen test consequent keyword.position
  | some _ =>
      let alternate ← nested
      return .ifElse test consequent alternate keyword.position

/--
Reads to the end of a loop header of which the opening parenthesis has been read
and `inner` further ones are open. A header left open runs to the end.
-/
def skipHeader : (budget inner : Nat) → Production Unit
  | 0, _ => exhausted
  | budget + 1, inner => onNext (return ()) fun token => do
      advance
      if token.kind = .leftParen then skipHeader budget (inner + 1)
      else if token.kind = .rightParen then
        if inner = 0 then return () else skipHeader budget (inner - 1)
      else skipHeader budget inner

def loopKind (keyword : Token) : LoopKind :=
  if keyword.lexeme = "while" then .whileLoop else .forLoop

def loop (budget : Nat) (nested : Production Statement) (keyword : Token) :
    Production Statement := advancing do
  advance
  let _ ← expect .leftParen
  skipHeader budget 0
  let body ← nested
  return .loop (loopKind keyword) body keyword.position

def statementAt (budget : Nat) (nested : Production Statement) (token : Token) :
    Production Statement :=
  if token.isSpelled .keyword ["var", "let", "const"] then
    declaration budget token
  else if token.isSpelled .keyword ["function"] then
    function budget nested token
  else if token.isSpelled .keyword ["return"] then
    returning budget token
  else if token.isSpelled .keyword ["if"] then
    conditional budget nested token
  else if token.isSpelled .keyword ["while", "for"] then
    loop budget nested token
  else if token.kind = .leftBrace then
    blockStatement budget nested
  else
    expressionStatement budget

def anyStatement (budget : Nat) (nested : Production Statement) :
    Production Statement :=
  advancing (onNext (expressionStatement budget) (statementAt budget nested))

def statement : (budget : Nat) → Production Statement
  | 0 => exhausted
  | budget + 1 => delayed fun _ => anyStatement (budget + 1) (statement budget)

/-! ### Recovery -/

def startsStatement (token : Token) : Bool :=
  token.isSpelled .keyword
    ["function", "var", "let", "const", "if", "while", "for", "return"]

/-- Reads past the next semicolon, or up to a keyword that starts a statement. -/
def skipStatement : (budget : Nat) → Production Unit
  | 0 => exhausted
  | budget + 1 => onNext (return ()) fun token =>
      if token.kind = .semicolon then advance
      else if startsStatement token then return ()
      else do
        advance
        skipStatement budget

/-- Drops the offending token and goes on to where a statement may begin. -/
def synchronize (budget : Nat) : Production Unit := do
  advance
  skipStatement budget

end ScriptAudit.Grammar
