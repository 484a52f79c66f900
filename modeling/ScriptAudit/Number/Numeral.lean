/-
Numerals: the longest beginning of a text that writes a number.

White space and a sign may come first. Then stand decimal digits with an
optional point and a power of ten, or hexadecimal digits with an optional point
and a power of two, or one of the words for infinity and for no number at all,
in letters of either case. The word for no number may carry a payload between
parentheses. Any other text reads as zero.
-/

import ScriptAudit.Bytes
import ScriptAudit.Number.Binary64

namespace ScriptAudit

inductive Numeral where
  | finite (negative : Bool) (significand base : Nat) (exponent : Int)
  | infinite (negative : Bool)
  | notANumber (negative : Bool) (payload : Nat)

namespace Numeral

open Bytes

def absent : Numeral := .finite false 0 10 0

def lowerCase (byte : UInt8) : UInt8 :=
  if 0x41 ≤ byte && byte ≤ 0x5a then byte + 0x20 else byte

def isHexDigit (byte : UInt8) : Bool :=
  isDigit byte || (0x61 ≤ lowerCase byte && lowerCase byte ≤ 0x66)

def digitValue (byte : UInt8) : Nat :=
  if isDigit byte then byte.toNat - 0x30 else (lowerCase byte).toNat - 0x57

def isDigitIn (base : Nat) (byte : UInt8) : Bool :=
  isHexDigit byte && digitValue byte < base

def digitsValue (base : Nat) (digits : Bytes) : Nat :=
  digits.foldl (fun value digit => value * base + digitValue digit) 0

def sign : Bytes → Bool × Bytes
  | [] => (false, [])
  | byte :: rest =>
      if byte = 0x2d then (true, rest)
      else if byte = 0x2b then (false, rest)
      else (false, byte :: rest)

def fraction (isDigitOf : UInt8 → Bool) : Bytes → Bytes × Bytes
  | [] => ([], [])
  | byte :: rest =>
      if byte = point then (rest.takeWhile isDigitOf, rest.dropWhile isDigitOf)
      else ([], byte :: rest)

/-- The power after its mark; without a digit there is none. -/
def power (mark : UInt8) : Bytes → Int
  | [] => 0
  | byte :: rest =>
      if lowerCase byte = mark then
        let (negative, digits) := sign rest
        let value := digitsValue 10 (digits.takeWhile isDigit)
        if negative then -value else value
      else 0

def decimalForm? (negative : Bool) (text : Bytes) : Option Numeral :=
  let whole := text.takeWhile isDigit
  let (places, rest) := fraction isDigit (text.dropWhile isDigit)
  if whole.isEmpty && places.isEmpty then none
  else
    some (.finite negative (digitsValue 10 (whole ++ places)) 10
      (power 0x65 rest - places.length))

def hexadecimalForm? (negative : Bool) (text : Bytes) : Option Numeral :=
  let whole := text.takeWhile isHexDigit
  let (places, rest) := fraction isHexDigit (text.dropWhile isHexDigit)
  if whole.isEmpty && places.isEmpty then none
  else
    some (.finite negative (digitsValue 16 (whole ++ places)) 2
      (power 0x70 rest - 4 * places.length))

/-- The text after a word in lower case that it begins with, in any case. -/
def afterWord? (word text : Bytes) : Option Bytes :=
  if word.isPrefixOf (text.map lowerCase) then some (text.drop word.length)
  else none

/-- The base that a payload is written in, and its digits. A mark makes it
hexadecimal and a zero at its head makes it octal. -/
def payloadDigits (text : Bytes) : Nat × Bytes :=
  match afterWord? "0x" text with
  | some digits => (16, digits)
  | none => if text.head? = some 0x30 then (8, text) else (10, text)

def isPayloadByte (byte : UInt8) : Bool :=
  isLetter byte || isDigit byte || byte == 0x5f

/-- The payload between parentheses. It is zero where the parentheses are
missing or hold anything but digits. -/
def payload : Bytes → Nat
  | [] => 0
  | byte :: rest =>
      let (base, digits) := payloadDigits (rest.takeWhile isPayloadByte)
      if byte = 0x28 && (rest.dropWhile isPayloadByte).head? = some 0x29
          && digits.all (isDigitIn base) then
        digitsValue base digits
      else 0

def unsigned? (negative : Bool) (text : Bytes) : Option Numeral :=
  ((afterWord? "0x" text).bind (hexadecimalForm? negative))
    <|> decimalForm? negative text
    <|> (afterWord? "inf" text).map (fun _ => .infinite negative)
    <|> (afterWord? "nan" text).map fun rest =>
      .notANumber negative (payload rest)

def read (text : Bytes) : Numeral :=
  let (negative, unsigned) := sign (text.dropWhile isSpace)
  (unsigned? negative unsigned).getD absent

def value : Numeral → Binary64
  | .finite negative significand base exponent =>
      .ofScaled negative significand base exponent
  | .infinite negative => .ofMagnitude negative Binary64.infinityBits
  | .notANumber negative payload => .notANumber negative payload

end Numeral

end ScriptAudit
