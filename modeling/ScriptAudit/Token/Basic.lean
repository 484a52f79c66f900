/-
Tokens: what a piece of source text is, how it reads, and where it begins.
-/

import ScriptAudit.Position

namespace ScriptAudit

namespace Token

/-- The class of a token. Operators are classed by the role they play. -/
inductive Kind where
  | identifier
  | number
  | string
  | boolean
  | null
  | keyword
  | assignment
  | arithmetic
  | comparison
  | logical
  | unary
  | semicolon
  | comma
  | dot
  | colon
  | leftParen
  | rightParen
  | leftBrace
  | rightBrace
  | leftBracket
  | rightBracket
  | comment
  | newline
  | endOfFile
  | unknown
  deriving DecidableEq

namespace Kind

def all : List Kind :=
  [identifier, number, string, boolean, null, keyword, assignment, arithmetic,
    comparison, logical, unary, semicolon, comma, dot, colon, leftParen,
    rightParen, leftBrace, rightBrace, leftBracket, rightBracket, comment,
    newline, endOfFile, unknown]

def name : Kind → Bytes
  | identifier => "Identifier"
  | number => "Number"
  | string => "String"
  | boolean => "Boolean"
  | null => "Null"
  | keyword => "Keyword"
  | assignment => "Assignment"
  | arithmetic => "Arithmetic"
  | comparison => "Comparison"
  | logical => "Logical"
  | unary => "Unary"
  | semicolon => "Semicolon"
  | comma => "Comma"
  | dot => "Dot"
  | colon => "Colon"
  | leftParen => "LParen"
  | rightParen => "RParen"
  | leftBrace => "LBrace"
  | rightBrace => "RBrace"
  | leftBracket => "LBracket"
  | rightBracket => "RBracket"
  | comment => "Comment"
  | newline => "Newline"
  | endOfFile => "EOF"
  | unknown => "Unknown"

/-- Comments and newlines carry no meaning for the grammar. -/
def isTrivia (kind : Kind) : Bool :=
  kind == comment || kind == newline

end Kind

end Token

structure Token where
  kind : Token.Kind
  lexeme : Bytes
  position : Position
  deriving DecidableEq

namespace Token

/-- Both the kind and the spelling of a token matter to the grammar. -/
def isSpelled (token : Token) (kind : Kind) (spellings : List Bytes) : Bool :=
  token.kind == kind && spellings.contains token.lexeme

/-- The line of a token dump: `Token(<Kind>, "<lexeme>", <line>:<column>)`. -/
def dump (token : Token) : Bytes :=
  "Token(" ++ token.kind.name ++ ", \"" ++ token.lexeme ++ "\", "
    ++ Bytes.decimal token.position.line ++ ":"
    ++ Bytes.decimal token.position.column ++ ")"

end Token

end ScriptAudit
