/-
Byte strings, the byte classes of seven-bit text, and decimal numerals.

Sources, lexemes, messages and file contents are byte strings throughout:
columns count bytes, and no step assumes that the bytes are valid text.
-/

namespace ScriptAudit

abbrev Bytes := List UInt8

namespace Bytes

/-- The bytes of a text in UTF-8. A text in the place of bytes means these. -/
def ofString (text : String) : Bytes :=
  text.toList.flatMap String.utf8EncodeChar

instance : Coe String Bytes := ⟨ofString⟩

def decimal (number : Nat) : Bytes :=
  (Nat.toDigits 10 number).flatMap String.utf8EncodeChar

def newline : UInt8 := 0x0a

def backslash : UInt8 := 0x5c

def slash : UInt8 := 0x2f

def asterisk : UInt8 := 0x2a

def point : UInt8 := 0x2e

def isDigit (byte : UInt8) : Bool :=
  0x30 ≤ byte && byte ≤ 0x39

def isLetter (byte : UInt8) : Bool :=
  (0x41 ≤ byte && byte ≤ 0x5a) || (0x61 ≤ byte && byte ≤ 0x7a)

def upper (byte : UInt8) : UInt8 :=
  if 0x61 ≤ byte && byte ≤ 0x7a then byte - 0x20 else byte

/-- Space and the five control characters from tab to carriage return. -/
def isSpace (byte : UInt8) : Bool :=
  byte == 0x20 || (0x09 ≤ byte && byte ≤ 0x0d)

def trim (bytes : Bytes) : Bytes :=
  ((bytes.dropWhile isSpace).reverse.dropWhile isSpace).reverse

def unlines (lines : List Bytes) : Bytes :=
  lines.flatMap fun line => line ++ [newline]

end Bytes

end ScriptAudit
