/-
From source bytes to tokens. Every source has a token list: bytes of no known
use become tokens of their own, and one end-of-file token closes the list.
-/

import ScriptAudit.Token.Piece

namespace ScriptAudit

def Piece.token (piece : Piece) (position : Position) : Token :=
  { kind := piece.kind
    lexeme := piece.lexeme
    position := position }

def Token.finish (position : Position) : Token :=
  { kind := .endOfFile
    lexeme := []
    position := position }

/--
The tokens of a source whose first `covered` bytes belong to a token already
listed; `position` is the place of its first byte.
-/
def tokensFrom (covered : Nat) (position : Position) : Bytes → List Token
  | [] => [Token.finish position]
  | byte :: rest =>
      match covered with
      | more + 1 => tokensFrom more (position.after byte) rest
      | 0 =>
          match Piece.first? (byte :: rest) with
          | none => tokensFrom 0 (position.after byte) rest
          | some piece =>
              piece.token position ::
                tokensFrom (piece.extent.length - 1) (position.after byte) rest

/-- Covered bytes move the position along and yield nothing else. -/
theorem tokensFrom_covered (covered : Nat) (position : Position)
    (source : Bytes) :
    tokensFrom covered position source =
      tokensFrom 0 (position.advance (source.take covered))
        (source.drop covered) := by
  induction source generalizing covered position with
  | nil => simp [tokensFrom]
  | cons byte rest inductionHypothesis =>
      cases covered with
      | zero => rfl
      | succ more =>
          rw [tokensFrom, inductionHypothesis]
          rfl

def tokenize (source : Bytes) : List Token :=
  tokensFrom 0 .start source

end ScriptAudit
