/-
A printer of JSON values: two columns for each level, fields in the order of their
names.
-/

import ScriptAudit.Report.Json

namespace ScriptAudit

namespace Json

open Bytes

def hexDigit (value : UInt8) : UInt8 :=
  if value < 10 then 0x30 + value else 0x57 + value

def escape (byte : UInt8) : Bytes :=
  if byte = 0x22 || byte = backslash then [backslash, byte]
  else if byte = 0x09 then "\\t"
  else if byte = newline then "\\n"
  else if byte = 0x0d then "\\r"
  else if byte < 0x20 then
    "\\u00" ++ [hexDigit (byte / 16), hexDigit (byte % 16)]
  else [byte]

def quote (text : Bytes) : Bytes :=
  "\"" ++ text.flatMap escape ++ "\""

def integerText (value : Int) : Bytes :=
  if value < 0 then "-" ++ decimal value.natAbs else decimal value.natAbs

def lineAt (indent : Nat) : Bytes :=
  newline :: List.replicate indent 0x20

def furtherEntry (indent : Nat) (entry : Bytes) : Bytes :=
  "," ++ lineAt indent ++ entry

/-- The entries of an array or object, each on a line of its own. -/
def bracketed (opening closing : Bytes) (indent : Nat) (entries : List Bytes) :
    Bytes :=
  match entries with
  | [] => opening ++ closing
  | first :: others =>
      opening ++ lineAt (indent + 2) ++ first
        ++ others.flatMap (furtherEntry (indent + 2))
        ++ lineAt indent ++ closing

/-- Fields are written in the order of their names. -/
def sortFields (fields : List (Bytes × Bytes)) : List (Bytes × Bytes) :=
  fields.mergeSort fun left right => decide (left.1 ≤ right.1)

def fieldText (field : Bytes × Bytes) : Bytes :=
  quote field.1 ++ ": " ++ field.2

mutual

/-- The text of a value that starts at a depth of `indent` columns. -/
def render (indent : Nat) : Json → Bytes
  | integer value => integerText value
  | string text => quote text
  | array items => bracketed "[" "]" indent (renderItems (indent + 2) items)
  | object fields =>
      bracketed "\x7b" "\x7d" indent
        ((sortFields (renderFields (indent + 2) fields)).map fieldText)

def renderItems (indent : Nat) : List Json → List Bytes
  | [] => []
  | item :: rest => item.render indent :: renderItems indent rest

def renderFields (indent : Nat) : List (Bytes × Json) → List (Bytes × Bytes)
  | [] => []
  | (name, value) :: rest =>
      (name, value.render indent) :: renderFields indent rest

end

def text (value : Json) : Bytes :=
  value.render 0

end Json

def Report.json (findings : List Finding) : Bytes :=
  document Json.text findings

end ScriptAudit
