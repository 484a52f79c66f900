/-
The fixed vocabulary: reserved words, punctuation marks and operators.
-/

import ScriptAudit.Token.Basic

namespace ScriptAudit.Token

open Bytes

def isWordStart (byte : UInt8) : Bool :=
  isLetter byte || byte == 0x5f || byte == 0x24

def isWordPart (byte : UInt8) : Bool :=
  isWordStart byte || isDigit byte

def keywords : List Bytes :=
  ["var", "let", "const", "function", "return", "if", "else", "for", "while"]

def wordKind (word : Bytes) : Kind :=
  if word = "true" ∨ word = "false" then .boolean
  else if word = "null" then .null
  else if keywords.contains word then .keyword
  else .identifier

def punctuation : List (UInt8 × Kind) :=
  [(0x3b, .semicolon), (0x2c, .comma), (0x2e, .dot), (0x3a, .colon),
    (0x28, .leftParen), (0x29, .rightParen), (0x7b, .leftBrace),
    (0x7d, .rightBrace), (0x5b, .leftBracket), (0x5d, .rightBracket)]

structure Operator where
  spelling : Bytes
  kind : Kind
  deriving DecidableEq

/-- Every operator with its kind, the longer spellings first. -/
def operators : List Operator :=
  [⟨"===", .comparison⟩, ⟨"!==", .comparison⟩, ⟨">>>", .arithmetic⟩,
    ⟨"<<=", .assignment⟩, ⟨">>=", .assignment⟩,
    ⟨"==", .comparison⟩, ⟨"!=", .comparison⟩, ⟨"<=", .comparison⟩,
    ⟨">=", .comparison⟩, ⟨"&&", .logical⟩, ⟨"||", .logical⟩,
    ⟨"++", .unary⟩, ⟨"--", .unary⟩, ⟨"+=", .assignment⟩,
    ⟨"-=", .assignment⟩, ⟨"*=", .assignment⟩, ⟨"/=", .assignment⟩,
    ⟨"%=", .assignment⟩, ⟨"&=", .assignment⟩, ⟨"|=", .assignment⟩,
    ⟨"^=", .assignment⟩, ⟨"<<", .arithmetic⟩, ⟨">>", .arithmetic⟩,
    ⟨"**", .arithmetic⟩,
    ⟨"+", .arithmetic⟩, ⟨"-", .arithmetic⟩, ⟨"*", .arithmetic⟩,
    ⟨"/", .arithmetic⟩, ⟨"%", .arithmetic⟩, ⟨"&", .arithmetic⟩,
    ⟨"|", .arithmetic⟩, ⟨"^", .arithmetic⟩, ⟨"=", .assignment⟩,
    ⟨"<", .comparison⟩, ⟨">", .comparison⟩, ⟨"!", .unary⟩, ⟨"~", .unary⟩]

def operator? (source : Bytes) : Option Operator :=
  operators.find? fun operator => operator.spelling.isPrefixOf source

end ScriptAudit.Token
