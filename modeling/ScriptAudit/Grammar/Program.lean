/-
Whole programs. Reading never fails: where no statement can be read, the
problem is noted and reading resumes at the next statement.
-/

import ScriptAudit.Grammar.Statement
import ScriptAudit.Token.Stream

namespace ScriptAudit

namespace Grammar

/-- What a stretch of tokens came to: a statement, or a problem. -/
inductive Item where
  | kept (statement : Statement)
  | dropped (diagnostic : Diagnostic)

namespace Item

def statement? : Item → Option Statement
  | kept statement => some statement
  | dropped _ => none

def diagnostic? : Item → Option Diagnostic
  | kept _ => none
  | dropped diagnostic => some diagnostic

end Item

/--
The items of a token list, within a budget that exceeds its length. The
offending token itself is always dropped. `finish` is what a diagnostic shows
when the problem is the end of the list.
-/
def items (finish : Token) : (budget : Nat) → List Token → List Item
  | 0, _ => []
  | _, [] => []
  | budget + 1, tokens =>
      match statement (budget + 1) tokens with
      | .accept statement rest => .kept statement :: items finish budget rest
      | .reject problem rest =>
          .dropped { problem := problem, found := rest.head?.getD finish }
            :: items finish budget (synchronize (budget + 1) rest).rest

end Grammar

structure Parsed where
  program : Program
  diagnostics : List Diagnostic

namespace Parsed

def ofItems (items : List Grammar.Item) : Parsed :=
  { program := ⟨items.filterMap Grammar.Item.statement?⟩
    diagnostics := items.filterMap Grammar.Item.diagnostic? }

def ofStream (stream : Token.Stream) : Parsed :=
  ofItems (Grammar.items stream.finish (stream.tokens.length + 1) stream.tokens)

end Parsed

def parseTokens (tokens : List Token) : Parsed :=
  .ofStream (.ofTokens tokens)

def parse (source : Bytes) : Parsed :=
  parseTokens (tokenize source)

end ScriptAudit
