/-
The layout of a tree over tokens that stand in order. A node with a token of its
own stands before everything below it, any other node stands where its first child
does, and the subtrees of one node stand one after the other. So the nodes in
pre-order are in the order of their places.
-/

import ScriptAudit.Proofs.Grammar.Placement
import ScriptAudit.Proofs.Token.Order

namespace ScriptAudit

namespace Node

def Precedes (first second : Node) : Prop :=
  ∀ node ∈ first.preorder, ∀ other ∈ second.preorder,
    node.position < other.position

/-- How a node stands to what is below it. -/
structure Arranged (node : Node) : Prop where
  opens : node.isLed = false → ∀ child ∈ node.children,
    ∀ other ∈ child.preorder, node.position < other.position
  leads : node.isLed = true →
    node.children.head?.map Node.position = some node.position
  siblings : node.children.Pairwise Precedes

theorem Arranged.le {node : Node} (arranged : node.Arranged)
    (below : ∀ child ∈ node.children, ∀ other ∈ child.preorder,
      child.position ≤ other.position) :
    ∀ other ∈ node.preorder, node.position ≤ other.position := by
  intro other present
  rcases mem_preorder_iff.mp present with rfl | ⟨child, member, inside⟩
  · exact le_refl other.position
  cases led : node.isLed with
  | false => exact le_of_lt (arranged.opens led child member other inside)
  | true =>
      have place := arranged.leads led
      have siblings := arranged.siblings
      cases children : node.children with
      | nil =>
          rw [children] at member
          cases member
      | cons first others =>
          rw [children] at place siblings member below
          have same : first.position = node.position := Option.some.inj place
          rw [← same]
          rcases List.mem_cons.mp member with rfl | later
          · exact below child (.head _) other inside
          · have before := (List.pairwise_cons.mp siblings).1 child later
            exact le_of_lt (before first (mem_preorder_self first) other inside)

theorem le_of_mem_preorder {root : Node}
    (arranged : ∀ node ∈ root.preorder, node.Arranged) :
    ∀ node ∈ root.preorder, root.position ≤ node.position := by
  induction root using induction_on_children with
  | step root inductionHypothesis =>
      obtain ⟨top, below⟩ := forall_mem_preorder.mp arranged
      exact top.le fun child member =>
        inductionHypothesis child member (below child member)

theorem preorder_pairwise_le {root : Node}
    (arranged : ∀ node ∈ root.preorder, node.Arranged) :
    root.preorder.Pairwise fun first second =>
      first.position ≤ second.position := by
  induction root using induction_on_children with
  | step root inductionHypothesis =>
      have least := le_of_mem_preorder arranged
      obtain ⟨top, below⟩ := forall_mem_preorder.mp arranged
      rw [preorder_eq] at least ⊢
      refine List.pairwise_cons.mpr ⟨(List.forall_mem_cons.mp least).2, ?_⟩
      refine List.pairwise_flatMap.mpr ⟨fun child member => ?_, ?_⟩
      · exact inductionHypothesis child member (below child member)
      · refine top.siblings.imp fun before node member other present => ?_
        exact le_of_lt (before node member other present)

end Node

/-! ### Trees over tokens -/

/-- Trees that stand one after the other at tokens of a list, each arranged. -/
structure Stands (tokens : List Token) (roots : List Node) : Prop where
  within : ∀ root ∈ roots, ∀ node ∈ root.preorder,
    ∃ token ∈ tokens, token.position = node.position
  arranged : ∀ root ∈ roots, ∀ node ∈ root.preorder, node.Arranged
  ordered : roots.Pairwise Node.Precedes

/-- If the tokens are in order, then the trees stand at them in order. -/
def Arranges (tokens : List Token) (roots : List Node) : Prop :=
  InOrder tokens → Stands tokens roots

namespace Arranges

variable {tokens front back : List Token} {roots others : List Node}
  {node : Node}

theorem nil : Arranges tokens [] :=
  fun _ =>
    { within := List.forall_mem_nil _
      arranged := List.forall_mem_nil _
      ordered := .nil }

theorem append (first : Arranges front roots) (second : Arranges back others) :
    Arranges (front ++ back) (roots ++ others) := by
  intro inOrder
  obtain ⟨frontOrder, backOrder, across⟩ := inOrder_append.mp inOrder
  have before := first frontOrder
  have behind := second backOrder
  constructor
  · refine List.forall_mem_append.mpr ⟨?_, ?_⟩
    · intro root member node present
      obtain ⟨token, inside, place⟩ := before.within root member node present
      exact ⟨token, List.mem_append_left back inside, place⟩
    · intro root member node present
      obtain ⟨token, inside, place⟩ := behind.within root member node present
      exact ⟨token, List.mem_append_right front inside, place⟩
  · exact List.forall_mem_append.mpr ⟨before.arranged, behind.arranged⟩
  · refine List.pairwise_append.mpr ⟨before.ordered, behind.ordered, ?_⟩
    intro root member other otherMember node present below inside
    obtain ⟨token, early, place⟩ := before.within root member node present
    obtain ⟨later, late, otherPlace⟩ :=
      behind.within other otherMember below inside
    rw [← place, ← otherPlace]
    exact across token early later late

theorem behind (second : Arranges back roots) :
    Arranges (front ++ back) roots :=
  append nil second

theorem before (first : Arranges front roots) :
    Arranges (front ++ back) roots := by
  have both : Arranges (front ++ back) (roots ++ []) := first.append nil
  rwa [List.append_nil] at both

theorem skip {token : Token} (rest : Arranges tokens roots) :
    Arranges (token :: tokens) roots := by
  rw [← List.singleton_append]
  exact rest.behind

theorem parted {separator : Token} (first : Arranges front roots)
    (second : Arranges back others) :
    Arranges (front ++ separator :: back) (roots ++ others) :=
  first.append second.skip

theorem opened {token : Token} (place : token.position = node.position)
    (unled : node.isLed = false) (below : Arranges tokens node.children) :
    Arranges (token :: tokens) [node] := by
  intro inOrder
  obtain ⟨later, rest⟩ := inOrder_cons.mp inOrder
  have inner := below rest
  constructor
  · refine List.forall_mem_singleton.mpr (Node.forall_mem_preorder.mpr ⟨?_, ?_⟩)
    · exact ⟨token, .head _, place⟩
    · intro child member other present
      obtain ⟨found, inside, same⟩ := inner.within child member other present
      exact ⟨found, .tail _ inside, same⟩
  · refine List.forall_mem_singleton.mpr
      (Node.forall_mem_preorder.mpr ⟨⟨?_, ?_, inner.ordered⟩, inner.arranged⟩)
    · intro _ child member other present
      obtain ⟨found, inside, same⟩ := inner.within child member other present
      rw [← place, ← same]
      exact later found inside
    · intro led
      rw [unled] at led
      cases led
  · exact List.pairwise_singleton _ _

theorem led (led : node.isLed = true)
    (place : node.children.head?.map Node.position = some node.position)
    (below : Arranges tokens node.children) : Arranges tokens [node] := by
  intro inOrder
  have inner := below inOrder
  constructor
  · refine List.forall_mem_singleton.mpr
      (Node.forall_mem_preorder.mpr ⟨?_, inner.within⟩)
    obtain ⟨first, head, same⟩ := Option.map_eq_some_iff.mp place
    rw [← same]
    exact inner.within first (List.mem_of_mem_head? head) first
      (Node.mem_preorder_self first)
  · refine List.forall_mem_singleton.mpr
      (Node.forall_mem_preorder.mpr
        ⟨⟨?_, fun _ => place, inner.ordered⟩, inner.arranged⟩)
    intro unled
    rw [led] at unled
    cases unled
  · exact List.pairwise_singleton _ _

theorem name (token : Token) :
    Arranges [token] [.ofIdentifier (Grammar.identifierOf token)] :=
  opened rfl rfl nil

end Arranges

namespace Grammar

theorem arranges_literal {token : Token} {content : Literal}
    (writes : literal? token = some content) :
    Arranges [token] [.expression (.literal content)] :=
  .opened (position_of_literal? writes).symm rfl .nil

/-- The nodes that a phrase stands for are laid out over its tokens. -/
theorem Derives.arranges {phrase : Phrase} {tokens : List Token}
    (derivation : Derives phrase tokens) : Arranges tokens phrase.roots := by
  induction derivation with
  | identifier _ | oneParameter _ => exact .name _
  | literal writes => exact arranges_literal writes
  | parenthesized _ _ _ nested => exact nested.before.skip
  | array _ _ _ elements => exact .opened rfl rfl elements.before
  | object _ _ _ properties => exact .opened rfl rfl properties.before
  | member _ _ _ object =>
      exact .led rfl rfl (object.parted (.name _))
  | index _ _ _ _ object selector =>
      exact .led rfl rfl (object.parted selector).before
  | call _ _ _ _ callee arguments =>
      exact .led rfl rfl (callee.parted arguments).before
  | update _ _ accessed => exact .led rfl rfl accessed.before
  | operator _ _ operand => exact .opened rfl rfl operand
  | join _ _ _ left right | assignment _ _ _ left right =>
      exact .led rfl rfl (left.parted right)
  | moreExpressions _ _ _ head tail | moreProperties _ _ _ head tail
  | moreDeclarators _ _ _ head tail =>
      exact head.parted tail
  | namedProperty _ _ _ content =>
      exact .led rfl rfl ((Arranges.name _).append content.skip)
  | quotedProperty _ writes _ _ content =>
      exact .led rfl (congrArg some (position_of_literal? writes))
        ((arranges_literal writes).append content.skip)
  | moreParameters _ _ _ tail => exact (Arranges.name _).append tail.skip
  | declared _ => exact .led rfl rfl (.name _)
  | initialized _ _ _ init =>
      exact .led rfl rfl ((Arranges.name _).append init.skip)
  | declaration _ _ _ content | returnValue _ _ _ content =>
      exact .opened rfl rfl content.before
  | function _ _ _ _ _ _ parameters block =>
      refine .opened rfl rfl ((Arranges.name _).append ?_)
      rw [List.map_map]
      exact (parameters.parted block).skip
  | returnNothing _ _ => exact .opened rfl rfl .nil
  | ifThen _ _ _ _ _ condition branch =>
      exact .opened rfl rfl (condition.parted branch).skip
  | ifElse _ _ _ _ _ _ _ condition branch other =>
      exact .opened rfl rfl ((condition.parted branch).parted other).skip
  | loop _ _ _ _ _ repeated =>
      exact .opened rfl rfl repeated.skip.behind.skip
  | expressionStatement _ _ _ content => exact .led rfl rfl content.before
  | block _ _ _ list => exact .opened rfl rfl list.before
  | moreStatements _ _ head tail => exact head.append tail
  | noExpressions | noProperties | noParameters | noStatements => exact .nil
  | bare _ same | settled _ same | operand _ same | first _ same
  | innermost _ same | rank _ same | simple _ same | oneExpression _ same
  | oneProperty _ same | oneDeclarator _ same | blockStatement _ same =>
      exact same

/-- Recovery never goes back, so what is kept stands in order as well. -/
theorem Partition.arranges {finish : Token} {segments : List Segment}
    {tokens : List Token} (partition : Partition finish segments tokens) :
    Arranges tokens
      ((segments.filterMap Segment.statement?).map .statement) := by
  induction partition with
  | nil => exact .nil
  | @cons segment segments following _ justified _ inductionHypothesis =>
      cases segment with
      | kept front content =>
          have derivation : Derives (.statement content) front := justified
          exact derivation.arranges.append inductionHypothesis
      | dropped unread offending skipped diagnostic =>
          exact inductionHypothesis.behind

end Grammar

open Grammar

theorem stands_parse (source : Bytes) :
    Stands (Token.Stream.ofTokens (tokenize source)).tokens
      ((parse source).program.body.map .statement) := by
  obtain ⟨segments, partition, statements, _⟩ :=
    parseTokens_segments (tokenize source)
  have inOrder := (inOrder_tokenize source).sublist
    (Token.Stream.tokens_sublist (tokenize source))
  have stands := partition.arranges inOrder
  rw [statements] at stands
  exact stands

theorem preorder_parse_pairwise_le (source : Bytes) :
    (Node.program (parse source).program).preorder.Pairwise
      fun first second => first.position ≤ second.position := by
  obtain ⟨within, arranged, ordered⟩ := stands_parse source
  rw [Node.preorder_eq]
  refine List.pairwise_cons.mpr ⟨?_, List.pairwise_flatMap.mpr ⟨?_, ?_⟩⟩
  · -- The program itself stands at the start, which no token precedes.
    intro node present
    obtain ⟨root, member, inside⟩ := List.mem_flatMap.mp present
    obtain ⟨token, listed, place⟩ := within root member node inside
    rw [← place]
    exact start_le_of_mem_tokenize (Token.Stream.tokens_subset _ listed)
  · intro root member
    exact Node.preorder_pairwise_le (arranged root member)
  · refine ordered.imp fun before node member other present => ?_
    exact le_of_lt (before node member other present)

/-! ### The layout of a source -/

def Node.isOpened : Node → Bool
  | .statement (.declaration ..) | .statement (.function ..) => true
  | .statement (.block ..) | .statement (.returning ..) => true
  | .statement (.ifThen ..) | .statement (.ifElse ..) => true
  | .statement (.loop ..) => true
  | .expression (.unary _ .before _ _) => true
  | .expression (.array ..) | .expression (.object ..) => true
  | _ => false

theorem Node.not_isLed_of_isOpened {node : Node} (opened : node.isOpened = true) :
    node.isLed = false := by
  unfold isOpened at opened
  split at opened
  all_goals first | rfl | cases opened

/--
In the tree of any source, a node with a token of its own stands before all that is
below it, a node that begins with its first part stands where that part does, and all
of a child stands before all of the next children.
-/
theorem parse_layout (source : Bytes) {node : Node}
    (present : node ∈ (Node.program (parse source).program).preorder) :
    (node.isOpened = true → ∀ child ∈ node.children, ∀ other ∈ child.preorder,
        node.position < other.position) ∧
      (node.isLed = true →
        node.children.head?.map Node.position = some node.position) ∧
      node.children.Pairwise fun first second =>
        ∀ early ∈ first.preorder, ∀ late ∈ second.preorder,
          early.position < late.position := by
  obtain ⟨_, arranged, ordered⟩ := stands_parse source
  rcases Node.mem_preorder_iff.mp present with rfl | ⟨root, member, inside⟩
  · -- The program begins where the source does, so it is of neither sort.
    exact ⟨nofun, nofun, ordered⟩
  · have laid := arranged root member node inside
    exact ⟨fun opened => laid.opens (Node.not_isLed_of_isOpened opened), laid.leads,
      laid.siblings⟩

def guardedProduct : Bytes := "if (a) (b + c) * !d; else e"

/-- The conditional stands before its parts; the product stands where its first name
does, and not at the parenthesis. -/
theorem parse_layout_guardedProduct :
    (∃ node ∈ (Node.program (parse guardedProduct).program).preorder,
      node.kind = .ifStatement ∧ node.position = ⟨1, 1⟩ ∧
        ∀ child ∈ node.children, ∀ other ∈ child.preorder,
          node.position < other.position) ∧
      ∃ node ∈ (Node.program (parse guardedProduct).program).preorder,
        node.kind = .binaryExpression ∧ node.position = ⟨1, 9⟩ ∧
          node.children.head?.map Node.position = some node.position := by
  have found (kind : Node.Kind) (place : Position)
      (first : ((Node.program (parse guardedProduct).program).preorder.find?
        (·.kind == kind)).map Node.position = some place) :
      ∃ node ∈ (Node.program (parse guardedProduct).program).preorder,
        node.kind = kind ∧ node.position = place := by
    obtain ⟨node, selected, same⟩ := Option.map_eq_some_iff.mp first
    have kinds := List.find?_some selected
    exact ⟨node, List.mem_of_find?_eq_some selected, eq_of_beq kinds, same⟩
  obtain ⟨conditional, inside, kind, place⟩ :=
    found .ifStatement ⟨1, 1⟩ (by decide +kernel)
  obtain ⟨product, within, otherKind, otherPlace⟩ :=
    found .binaryExpression ⟨1, 9⟩ (by decide +kernel)
  have opened : conditional.isOpened = true := by
    unfold Node.kind at kind
    split at kind <;> cases kind <;> rfl
  have led : product.isLed = true := by
    unfold Node.kind at otherKind
    split at otherKind <;> cases otherKind
    rfl
  refine ⟨⟨conditional, inside, kind, place, ?_⟩,
    ⟨product, within, otherKind, otherPlace, ?_⟩⟩
  · exact (parse_layout guardedProduct inside).1 opened
  · exact (parse_layout guardedProduct within).2.1 led

end ScriptAudit
