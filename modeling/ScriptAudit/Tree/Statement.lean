/-
Statements and programs.

A loop keeps its body only: the header between its parentheses is skipped
when the loop is read. A conditional without an alternate is a form of its own.
-/

import ScriptAudit.Tree.Expr

namespace ScriptAudit

structure Declarator where
  identifier : Identifier
  init : Option Expr
  position : Position

inductive LoopKind where
  | whileLoop
  | forLoop
  deriving DecidableEq

inductive Statement where
  | declaration (keyword : Bytes) (declarators : List Declarator)
      (position : Position)
  | function (identifier : Identifier) (parameters : List Identifier)
      (body : List Statement) (bodyPosition position : Position)
  | block (body : List Statement) (position : Position)
  | expression (value : Expr) (position : Position)
  | returning (argument : Option Expr) (position : Position)
  | ifThen (test : Expr) (consequent : Statement) (position : Position)
  | ifElse (test : Expr) (consequent alternate : Statement)
      (position : Position)
  | loop (kind : LoopKind) (body : Statement) (position : Position)

def Statement.position : Statement → Position
  | declaration _ _ position => position
  | function _ _ _ _ position => position
  | block _ position => position
  | expression _ position => position
  | returning _ position => position
  | ifThen _ _ position => position
  | ifElse _ _ _ position => position
  | loop _ _ position => position

structure Program where
  body : List Statement

end ScriptAudit
