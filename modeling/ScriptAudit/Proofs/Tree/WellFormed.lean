/-
Well-formed trees: those that the language can write. The conditions are local,
one for each form of a node, and a tree is well formed if all its nodes meet
them.
-/

import ScriptAudit.Grammar.Program
import ScriptAudit.Proofs.Tree.Preorder

namespace ScriptAudit

/-- Whether an `else` right after the statement would belong to a part of it. -/
def Statement.endsOpen : Statement → Bool
  | .ifThen .. => true
  | .ifElse _ _ alternate _ => alternate.endsOpen
  | .loop _ body _ => body.endsOpen
  | _ => false

def LiteralValue.kind : LiteralValue → Token.Kind
  | null => .null
  | boolean _ => .boolean
  | number _ => .number
  | string _ => .string

/-- The value of a literal is the one that its own text writes. -/
def Literal.isWritten (literal : Literal) : Bool :=
  Grammar.literalValue? ⟨literal.value.kind, literal.raw, literal.position⟩ ==
    some literal.value

namespace Node

def declarationKeywords : List Bytes := ["var", "let", "const"]

/-- What the language asks of a node, apart from what it asks of its parts. -/
def isRegular : Node → Bool
  | .statement (.declaration keyword declarators _) =>
      declarationKeywords.contains keyword && !declarators.isEmpty
  | .statement (.ifElse _ consequent _ _) => !consequent.endsOpen
  | .expression (.literal literal) => literal.isWritten
  | .expression (.binary operator _ _ _) =>
      Grammar.ranks.any fun rank => rank.spellings.contains operator
  | .expression (.unary operator .after _ _) =>
      Grammar.updates.contains operator
  | .expression (.member _ selector false _) => selector.name?.isSome
  | .property (.entry key _ _) => key.name?.isSome || key.stringText?.isSome
  | _ => true

def WellFormed (node : Node) : Prop :=
  ∀ descendant ∈ node.preorder, descendant.isRegular = true

theorem wellFormed_iff (node : Node) :
    node.WellFormed ↔
      node.isRegular = true ∧ ∀ child ∈ node.children, child.WellFormed :=
  forall_mem_preorder

end Node

end ScriptAudit
