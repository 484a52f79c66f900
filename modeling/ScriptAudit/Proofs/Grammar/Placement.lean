/-
Where the nodes of a tree stand. A name stands at the token that spells it, and
every other node at a token of its derivation or where its first child does.
-/

import ScriptAudit.Proofs.Grammar.Recovery
import ScriptAudit.Proofs.Tree.Preorder

namespace ScriptAudit

def Node.isLed : Node → Bool
  | .expression (.binary ..) | .expression (.assignment ..) => true
  | .expression (.call ..) | .expression (.member ..) => true
  | .expression (.unary _ .after _ _) => true
  | .statement (.expression ..) => true
  | .declarator _ | .property _ => true
  | _ => false

/-- How the position of a node is justified by a list of tokens. -/
inductive Node.Placed (all : List Token) : Node → Prop where
  | name {token : Token} (member : token ∈ all)
      (kind : token.kind = .identifier) :
      Placed all (.ofIdentifier (Grammar.identifierOf token))
  | token {node : Node} {token : Token}
      (unnamed : ∀ identifier, node ≠ .ofIdentifier identifier)
      (unled : node.isLed = false) (member : token ∈ all)
      (place : token.position = node.position) : Placed all node
  | child {node : Node} (led : node.isLed = true)
      (place : node.children.head?.map Node.position = some node.position) :
      Placed all node

namespace Node.Placed

variable {all : List Token}

theorem eq_of_isLed {node : Node} (placed : node.Placed all)
    (led : node.isLed = true) :
    node.children.head?.map Node.position = some node.position := by
  cases placed with
  | name => cases led
  | token _ unled => exact absurd (led.symm.trans unled) (by decide)
  | child _ place => exact place

theorem exists_token {identifier : Identifier}
    (placed : (Node.ofIdentifier identifier).Placed all) :
    ∃ token ∈ all, token.kind = .identifier ∧
      Grammar.identifierOf token = identifier := by
  generalize same : Node.ofIdentifier identifier = node at placed
  cases placed with
  | name member kind =>
      have spelled := Expr.identifier.inj (Node.expression.inj same)
      exact ⟨_, member, kind, spelled.symm⟩
  | token unnamed => exact absurd same.symm (unnamed identifier)
  | child led =>
      rw [← same] at led
      cases led

end Node.Placed

def AllPlaced (all : List Token) (roots : List Node) : Prop :=
  ∀ root ∈ roots, ∀ node ∈ root.preorder, node.Placed all

namespace AllPlaced

variable {all : List Token}

theorem nil : AllPlaced all [] :=
  List.forall_mem_nil _

theorem cons {root : Node} {others : List Node}
    (first : AllPlaced all [root]) (rest : AllPlaced all others) :
    AllPlaced all (root :: others) :=
  List.forall_mem_cons.mpr ⟨List.forall_mem_singleton.mp first, rest⟩

theorem append {front back : List Node} (before : AllPlaced all front)
    (behind : AllPlaced all back) : AllPlaced all (front ++ back) :=
  List.forall_mem_append.mpr ⟨before, behind⟩

theorem node {root : Node} (top : root.Placed all)
    (below : AllPlaced all root.children) : AllPlaced all [root] :=
  List.forall_mem_singleton.mpr (Node.forall_mem_preorder.mpr ⟨top, below⟩)

theorem name {token : Token} (member : token ∈ all)
    (kind : token.kind = .identifier) :
    AllPlaced all [.ofIdentifier (Grammar.identifierOf token)] :=
  node (.name member kind) nil

end AllPlaced

namespace Grammar

theorem Derives.allPlaced {all : List Token} {phrase : Phrase}
    {tokens : List Token} (derivation : Derives phrase tokens) :
    tokens ⊆ all → AllPlaced all phrase.roots := by
  induction derivation with
  | identifier kind => exact fun included => .name (included (.head _)) kind
  | literal writes =>
      intro included
      exact .node (.token nofun rfl (included (.head _))
        (position_of_literal? writes).symm) .nil
  | parenthesized _ _ _ nested =>
      intro included
      simp only [List.cons_subset, List.append_subset] at included
      exact nested included.1.2
  | array _ _ _ elements =>
      intro included
      simp only [List.cons_subset, List.append_subset] at included
      obtain ⟨⟨opening, inside⟩, _⟩ := included
      exact .node (.token nofun rfl opening rfl) (elements inside)
  | object _ _ _ properties =>
      intro included
      simp only [List.cons_subset, List.append_subset] at included
      obtain ⟨⟨opening, inside⟩, _⟩ := included
      exact .node (.token nofun rfl opening rfl) (properties inside)
  | member _ _ kind object =>
      intro included
      simp only [List.append_subset, List.cons_subset] at included
      obtain ⟨front, _, name, _⟩ := included
      exact .node (.child rfl rfl) (.cons (object front) (.name name kind))
  | index _ _ _ _ object selector =>
      intro included
      simp only [List.append_subset, List.cons_subset] at included
      obtain ⟨⟨front, _, inside⟩, _⟩ := included
      exact .node (.child rfl rfl) (.cons (object front) (selector inside))
  | call _ _ _ _ callee arguments =>
      intro included
      simp only [List.append_subset, List.cons_subset] at included
      obtain ⟨⟨front, _, inside⟩, _⟩ := included
      exact .node (.child rfl rfl) (.cons (callee front) (arguments inside))
  | update _ _ accessed =>
      intro included
      rw [List.append_subset] at included
      exact .node (.child rfl rfl) (accessed included.1)
  | operator _ _ operand =>
      intro included
      rw [List.cons_subset] at included
      exact .node (.token nofun rfl included.1 rfl) (operand included.2)
  | join _ _ _ left right | assignment _ _ _ left right =>
      intro included
      rw [List.append_subset, List.cons_subset] at included
      exact .node (.child rfl rfl)
        (.cons (left included.1) (right included.2.2))
  | moreExpressions _ _ _ head tail | moreProperties _ _ _ head tail
  | moreDeclarators _ _ _ head tail =>
      intro included
      rw [List.append_subset, List.cons_subset] at included
      exact .cons (head included.1) (tail included.2.2)
  | namedProperty kind _ _ content =>
      intro included
      simp only [List.cons_subset] at included
      exact .node (.child rfl rfl)
        (.cons (.name included.1 kind) (content included.2.2))
  | quotedProperty _ writes _ _ content =>
      intro included
      simp only [List.cons_subset] at included
      have place := position_of_literal? writes
      exact .node (.child rfl (congrArg some place))
        (.cons (.node (.token nofun rfl included.1 place.symm) .nil)
          (content included.2.2))
  | oneParameter kind => exact fun included => .name (included (.head _)) kind
  | moreParameters kind _ _ tail =>
      intro included
      simp only [List.cons_subset] at included
      exact .cons (.name included.1 kind) (tail included.2.2)
  | declared kind =>
      intro included
      exact .node (.child rfl rfl) (.name (included (.head _)) kind)
  | initialized kind _ _ init =>
      intro included
      simp only [List.cons_subset] at included
      exact .node (.child rfl rfl)
        (.cons (.name included.1 kind) (init included.2.2))
  | declaration _ _ _ content | returnValue _ _ _ content =>
      intro included
      simp only [List.append_subset, List.cons_subset] at included
      obtain ⟨⟨keyword, inside⟩, _⟩ := included
      exact .node (.token nofun rfl keyword rfl) (content inside)
  | function _ kind _ _ _ _ parameters block =>
      intro included
      simp only [List.append_subset, List.cons_subset] at included
      obtain ⟨⟨keyword, name, _, inside⟩, _, behind⟩ := included
      refine .node (.token nofun rfl keyword rfl)
        (.cons (.name name kind) (.append ?_ (block behind)))
      rw [List.map_map]
      exact parameters inside
  | returnNothing _ _ =>
      intro included
      exact .node (.token nofun rfl (included (.head _)) rfl) .nil
  | ifThen _ _ _ _ _ condition branch =>
      intro included
      simp only [List.append_subset, List.cons_subset] at included
      obtain ⟨⟨keyword, _, inside⟩, _, behind⟩ := included
      exact .node (.token nofun rfl keyword rfl)
        (.cons (condition inside) (branch behind))
  | ifElse _ _ _ _ _ _ _ condition branch other =>
      intro included
      simp only [List.append_subset, List.cons_subset] at included
      obtain ⟨⟨⟨keyword, _, inside⟩, _, behind⟩, _, last⟩ := included
      exact .node (.token nofun rfl keyword rfl)
        (.cons (condition inside) (.cons (branch behind) (other last)))
  | loop _ _ _ _ _ repeated =>
      intro included
      simp only [List.append_subset, List.cons_subset] at included
      obtain ⟨⟨keyword, _, _⟩, _, behind⟩ := included
      exact .node (.token nofun rfl keyword rfl) (repeated behind)
  | expressionStatement _ _ _ content =>
      intro included
      rw [List.append_subset] at included
      exact .node (.child rfl rfl) (content included.1)
  | block _ _ _ list =>
      intro included
      simp only [List.cons_subset, List.append_subset] at included
      obtain ⟨⟨opening, inside⟩, _⟩ := included
      exact .node (.token nofun rfl opening rfl) (list inside)
  | moreStatements _ _ head tail =>
      intro included
      rw [List.append_subset] at included
      exact .cons (head included.1) (tail included.2)
  | noExpressions | noProperties | noParameters | noStatements =>
      exact fun _ => .nil
  | bare _ same | settled _ same | operand _ same | first _ same
  | innermost _ same | rank _ same | simple _ same | oneExpression _ same
  | oneProperty _ same | oneDeclarator _ same | blockStatement _ same =>
      exact same

theorem Partition.allPlaced {all : List Token} {finish : Token}
    {segments : List Segment} {tokens : List Token}
    (partition : Partition finish segments tokens) :
    tokens ⊆ all →
      AllPlaced all
        ((segments.filterMap Segment.statement?).map .statement) := by
  induction partition with
  | nil => exact fun _ => .nil
  | @cons segment segments following _ justified _ inductionHypothesis =>
      intro included
      rw [List.append_subset] at included
      have rest := inductionHypothesis included.2
      cases segment with
      | kept front content =>
          have derivation : Derives (.statement content) front := justified
          exact .cons (derivation.allPlaced included.1) rest
      | dropped unread offending skipped diagnostic => exact rest

end Grammar

theorem Token.Stream.tokens_subset (all : List Token) :
    (Token.Stream.ofTokens all).tokens ⊆ all := by
  intro token member
  exact (List.mem_filter.mp (List.takeWhile_subset _ member)).1

theorem allPlaced_parseTokens (all : List Token) :
    AllPlaced (Token.Stream.ofTokens all).tokens
      ((parseTokens all).program.body.map .statement) := by
  obtain ⟨segments, partition, statements, _⟩ := parseTokens_segments all
  rw [← statements]
  exact partition.allPlaced (List.Subset.refl _)

end ScriptAudit
