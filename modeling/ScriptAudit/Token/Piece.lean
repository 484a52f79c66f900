/-
Pieces of source text. A piece is the run of bytes that one token covers,
together with the kind and the lexeme that the run determines.
-/

import ScriptAudit.Token.Spelling

namespace ScriptAudit

structure Piece where
  kind : Token.Kind
  extent : Bytes
  lexeme : Bytes
  deriving DecidableEq

namespace Piece

open Bytes

def verbatim (kind : Token.Kind) (extent : Bytes) : Piece :=
  { kind := kind
    extent := extent
    lexeme := extent }

def lineComment (source : Bytes) : Piece :=
  let text := source.takeWhile (· != newline)
  { kind := .comment
    extent := slash :: slash :: text
    lexeme := trim text }

/-- The text up to the first asterisk that a slash follows. -/
def enclosedText : Bytes → Bytes
  | [] => []
  | byte :: rest =>
      if byte = asterisk ∧ rest.head? = some slash then []
      else byte :: enclosedText rest

/-- A comment after a slash and an asterisk; one left open runs to the end. -/
def blockComment (source : Bytes) : Piece :=
  let text := enclosedText source
  { kind := .comment
    extent := slash :: asterisk :: text ++ (source.drop text.length).take 2
    lexeme := trim text }

def isQuote (byte : UInt8) : Bool :=
  byte == 0x22 || byte == 0x27 || byte == 0x60

/-- The bytes before the first quote that no backslash escapes. -/
def quotedText (quote : UInt8) (escaped : Bool) : Bytes → Bytes
  | [] => []
  | byte :: rest =>
      if escaped then byte :: quotedText quote false rest
      else if byte = quote then []
      else byte :: quotedText quote (byte == backslash) rest

/-- Each escaping backslash is dropped and the byte after it kept as it is. -/
def unescape (escaped : Bool) : Bytes → Bytes
  | [] => []
  | byte :: rest =>
      if escaped then byte :: unescape false rest
      else if byte = backslash then unescape true rest
      else byte :: unescape false rest

/-- A string after its opening quote; one left open runs to the end. -/
def quoted (quote : UInt8) (source : Bytes) : Piece :=
  let text := quotedText quote false source
  { kind := .string
    extent := quote :: text ++ (source.drop text.length).take 1
    lexeme := unescape false text }

def fractionalText : Bytes → Bytes
  | [] => []
  | byte :: rest =>
      if byte = point then byte :: rest.takeWhile isDigit else []

/-- Digits, then at most one point with any digits after it. -/
def number (source : Bytes) : Piece :=
  verbatim .number
    (source.takeWhile isDigit ++ fractionalText (source.dropWhile isDigit))

def word (source : Bytes) : Piece :=
  let text := source.takeWhile Token.isWordPart
  verbatim (Token.wordKind text) text

/-- A punctuation mark or an operator, or else one byte of no known use. -/
def symbol (byte : UInt8) (rest : Bytes) : Piece :=
  match Token.punctuation.lookup byte with
  | some kind => verbatim kind [byte]
  | none =>
      match Token.operator? (byte :: rest) with
      | some operator => verbatim operator.kind operator.spelling
      | none => verbatim .unknown [byte]

/-- Blanks separate pieces and belong to none. A newline is a piece. -/
def isBlank (byte : UInt8) : Bool :=
  byte == 0x20 || byte == 0x09 || byte == 0x0d

/-- A newline is written as a backslash and the letter n. -/
def lineBreak : Piece :=
  { kind := .newline
    extent := [newline]
    lexeme := "\\n" }

def first? : Bytes → Option Piece
  | [] => none
  | byte :: rest =>
      if isBlank byte then none
      else if byte = newline then some lineBreak
      else if byte = slash ∧ rest.head? = some slash then
        some (lineComment rest.tail)
      else if byte = slash ∧ rest.head? = some asterisk then
        some (blockComment rest.tail)
      else if isQuote byte then some (quoted byte rest)
      else if isDigit byte then some (number (byte :: rest))
      else if Token.isWordStart byte then some (word (byte :: rest))
      else some (symbol byte rest)

end Piece

end ScriptAudit
