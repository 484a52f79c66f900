/-
Places in a source text. Lines and columns count from one; a column counts
bytes, and a newline byte ends its line.
-/

import ScriptAudit.Bytes

namespace ScriptAudit

structure Position where
  line : Nat
  column : Nat
  deriving DecidableEq

namespace Position

def start : Position := ⟨1, 1⟩

def after (position : Position) (byte : UInt8) : Position :=
  if byte = Bytes.newline then
    ⟨position.line + 1, 1⟩
  else
    ⟨position.line, position.column + 1⟩

def advance (position : Position) (bytes : Bytes) : Position :=
  bytes.foldl after position

@[simp] theorem advance_nil (position : Position) :
    position.advance [] = position :=
  rfl

@[simp] theorem advance_cons (position : Position) (byte : UInt8)
    (rest : Bytes) :
    position.advance (byte :: rest) = (position.after byte).advance rest :=
  rfl

theorem advance_append (position : Position) (first second : Bytes) :
    position.advance (first ++ second) =
      (position.advance first).advance second :=
  List.foldl_append

end Position

end ScriptAudit
