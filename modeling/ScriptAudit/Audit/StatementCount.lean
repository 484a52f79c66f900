/-
The size of a statement list. A block counts as its contents, a conditional or
a loop as one more than what it governs, and any other statement as one; so a
function inside the list counts as one whatever its body holds.
-/

import ScriptAudit.Tree.Statement

namespace ScriptAudit.Statement

mutual

def count : Statement → Nat
  | .block body _ => countAll body
  | .ifThen _ consequent _ => 1 + consequent.count
  | .ifElse _ consequent alternate _ => 1 + consequent.count + alternate.count
  | .loop _ body _ => 1 + body.count
  | .declaration .. => 1
  | .function .. => 1
  | .expression .. => 1
  | .returning .. => 1

def countAll : List Statement → Nat
  | [] => 0
  | statement :: rest => statement.count + countAll rest

end

end ScriptAudit.Statement
