/-
Diagnostics: what the grammar asked for, and the token it found instead.
-/

import ScriptAudit.Token.Basic

namespace ScriptAudit

namespace Grammar

inductive Expectation where
  | token (kind : Token.Kind)
  | propertyName
  deriving DecidableEq

def Expectation.name : Expectation → Bytes
  | token kind => kind.name
  | propertyName => "property name"

inductive Problem where
  | expected (expectation : Expectation)
  | unexpected
  deriving DecidableEq

end Grammar

structure Diagnostic where
  problem : Grammar.Problem
  found : Token
  deriving DecidableEq

namespace Diagnostic

def position (diagnostic : Diagnostic) : Position :=
  diagnostic.found.position

def describe (token : Token) : Bytes :=
  token.kind.name ++ "(" ++ token.lexeme ++ ") at line "
    ++ Bytes.decimal token.position.line ++ ":"
    ++ Bytes.decimal token.position.column

def message (diagnostic : Diagnostic) : Bytes :=
  match diagnostic.problem with
  | .expected expectation =>
      "Expected " ++ expectation.name ++ ", got " ++ describe diagnostic.found
  | .unexpected => "Unexpected token " ++ describe diagnostic.found

end Diagnostic

end ScriptAudit
