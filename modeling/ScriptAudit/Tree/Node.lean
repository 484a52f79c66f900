/-
One view of everything in a program tree: nodes with a kind, a place, and an
ordered list of children. Walks are defined once, for nodes; the lemma that a
child is smaller than its parent makes them end.
-/

import ScriptAudit.Tree.Statement

namespace ScriptAudit

inductive Node where
  | program (content : Program)
  | statement (content : Statement)
  | declarator (content : Declarator)
  | expression (content : Expr)
  | property (content : Property)

namespace Node

inductive Kind where
  | program
  | variableDeclaration
  | variableDeclarator
  | functionDeclaration
  | blockStatement
  | expressionStatement
  | returnStatement
  | ifStatement
  | whileStatement
  | forStatement
  | binaryExpression
  | unaryExpression
  | assignmentExpression
  | callExpression
  | memberExpression
  | identifier
  | literal
  | arrayExpression
  | objectExpression
  | property
  deriving DecidableEq

def Kind.name : Kind → Bytes
  | program => "Program"
  | variableDeclaration => "VariableDeclaration"
  | variableDeclarator => "VariableDeclarator"
  | functionDeclaration => "FunctionDeclaration"
  | blockStatement => "BlockStatement"
  | expressionStatement => "ExpressionStatement"
  | returnStatement => "ReturnStatement"
  | ifStatement => "IfStatement"
  | whileStatement => "WhileStatement"
  | forStatement => "ForStatement"
  | binaryExpression => "BinaryExpression"
  | unaryExpression => "UnaryExpression"
  | assignmentExpression => "AssignmentExpression"
  | callExpression => "CallExpression"
  | memberExpression => "MemberExpression"
  | identifier => "Identifier"
  | literal => "Literal"
  | arrayExpression => "ArrayExpression"
  | objectExpression => "ObjectExpression"
  | property => "Property"

def kind : Node → Kind
  | .program _ => .program
  | .statement (.declaration ..) => .variableDeclaration
  | .statement (.function ..) => .functionDeclaration
  | .statement (.block ..) => .blockStatement
  | .statement (.expression ..) => .expressionStatement
  | .statement (.returning ..) => .returnStatement
  | .statement (.ifThen ..) => .ifStatement
  | .statement (.ifElse ..) => .ifStatement
  | .statement (.loop .whileLoop ..) => .whileStatement
  | .statement (.loop .forLoop ..) => .forStatement
  | .declarator _ => .variableDeclarator
  | .expression (.identifier _) => .identifier
  | .expression (.literal _) => .literal
  | .expression (.binary ..) => .binaryExpression
  | .expression (.unary ..) => .unaryExpression
  | .expression (.assignment ..) => .assignmentExpression
  | .expression (.call ..) => .callExpression
  | .expression (.member ..) => .memberExpression
  | .expression (.array ..) => .arrayExpression
  | .expression (.object ..) => .objectExpression
  | .property _ => .property

/-- A program begins where its source does. -/
def position : Node → Position
  | .program _ => .start
  | .statement content => content.position
  | .declarator content => content.position
  | .expression content => content.position
  | .property content => content.position

def ofIdentifier (identifier : Identifier) : Node :=
  .expression (.identifier identifier)

def expressionChildren : Expr → List Node
  | .identifier _ => []
  | .literal _ => []
  | .binary _ left right _ => [.expression left, .expression right]
  | .unary _ _ operand _ => [.expression operand]
  | .assignment _ target value _ => [.expression target, .expression value]
  | .call callee arguments _ => .expression callee :: arguments.map .expression
  | .member object selector _ _ => [.expression object, .expression selector]
  | .array elements _ => elements.map .expression
  | .object properties _ => properties.map .property

def statementChildren : Statement → List Node
  | .declaration _ declarators _ => declarators.map .declarator
  | .function identifier parameters body bodyPosition _ =>
      ofIdentifier identifier :: parameters.map ofIdentifier
        ++ [.statement (.block body bodyPosition)]
  | .block body _ => body.map .statement
  | .expression value _ => [.expression value]
  | .returning argument _ => argument.toList.map .expression
  | .ifThen test consequent _ => [.expression test, .statement consequent]
  | .ifElse test consequent alternate _ =>
      [.expression test, .statement consequent, .statement alternate]
  | .loop _ body _ => [.statement body]

def children : Node → List Node
  | .program content => content.body.map .statement
  | .statement content => statementChildren content
  | .declarator content =>
      ofIdentifier content.identifier :: content.init.toList.map .expression
  | .expression content => expressionChildren content
  | .property content => [.expression content.key, .expression content.value]

/-! ### A child is smaller than its parent -/

private theorem sizeOf_of_mem_map {α : Type} [SizeOf α] {wrap : α → Node}
    (extra : Nat) (wrapped : ∀ item, sizeOf (wrap item) = extra + sizeOf item)
    {items : List α} {child : Node} (member : child ∈ items.map wrap) :
    sizeOf child < extra + sizeOf items := by
  obtain ⟨item, present, rfl⟩ := List.mem_map.mp member
  have smaller := List.sizeOf_lt_of_mem present
  rw [wrapped]
  omega

private theorem sizeOf_of_mem_toList {init : Option Expr} {child : Node}
    (member : child ∈ init.toList.map Node.expression) :
    sizeOf child ≤ sizeOf init := by
  cases init with
  | none => cases member
  | some value =>
      cases List.mem_singleton.mp member
      simp

private theorem sizeOf_ofIdentifier (identifier : Identifier) :
    sizeOf (ofIdentifier identifier) = 2 + sizeOf identifier := by
  simp only [ofIdentifier, expression.sizeOf_spec, Expr.identifier.sizeOf_spec]
  omega

private theorem sizeOf_expressionChild {content : Expr} {child : Node}
    (member : child ∈ expressionChildren content) :
    sizeOf child < 1 + sizeOf content := by
  cases content with
  | identifier => cases member
  | literal => cases member
  | call callee arguments position =>
      rcases List.mem_cons.mp member with rfl | member
      · simp
        omega
      · have bound := sizeOf_of_mem_map 1 (by simp) member
        simp
        omega
  | array elements position =>
      have bound := sizeOf_of_mem_map 1 (by simp) member
      simp
      omega
  | object properties position =>
      have bound := sizeOf_of_mem_map 1 (by simp) member
      simp
      omega
  | _ =>
      simp only [expressionChildren, List.mem_cons, List.not_mem_nil,
        or_false] at member
      rcases member with rfl | rfl <;> simp <;> omega

private theorem sizeOf_statementChild {content : Statement} {child : Node}
    (member : child ∈ statementChildren content) :
    sizeOf child < 1 + sizeOf content := by
  cases content with
  | declaration keyword declarators position =>
      have bound := sizeOf_of_mem_map 1 (by simp) member
      simp
      omega
  | function identifier parameters body bodyPosition position =>
      cases position
      simp only [statementChildren, List.cons_append, List.mem_cons,
        List.mem_append, List.not_mem_nil, or_false] at member
      rcases member with rfl | member | rfl
      · simp [sizeOf_ofIdentifier]
        omega
      · have bound := sizeOf_of_mem_map 2 sizeOf_ofIdentifier member
        simp
        omega
      · simp
        omega
  | block body position =>
      have bound := sizeOf_of_mem_map 1 (by simp) member
      simp
      omega
  | returning argument position =>
      have bound := sizeOf_of_mem_toList member
      simp
      omega
  | _ =>
      simp only [statementChildren, List.mem_cons, List.not_mem_nil,
        or_false] at member
      rcases member with rfl | rfl | rfl <;> simp <;> omega

theorem sizeOf_lt_of_mem_children {node child : Node}
    (member : child ∈ node.children) : sizeOf child < sizeOf node := by
  cases node with
  | program content =>
      have bound := sizeOf_of_mem_map 1 (by simp) member
      cases content
      simp_all
      omega
  | statement content =>
      simpa using sizeOf_statementChild member
  | declarator content =>
      cases content with
      | mk identifier init position =>
          cases position
          rcases List.mem_cons.mp member with rfl | member
          · simp [sizeOf_ofIdentifier]
            omega
          · have bound : sizeOf child ≤ sizeOf init :=
              sizeOf_of_mem_toList member
            simp
            omega
  | expression content =>
      simpa using sizeOf_expressionChild member
  | property content =>
      cases content
      simp only [children, Property.key, Property.value, List.mem_cons,
        List.not_mem_nil, or_false] at member
      rcases member with rfl | rfl <;> simp <;> omega

/-! ### Walks -/

/--
Every node from `node` downwards in pre-order, each with its context. The
children of a node stand in the context that `descend` makes of its own.
-/
def walk {κ : Type} (descend : κ → Node → κ) (context : κ) (node : Node) :
    List (κ × Node) :=
  (context, node) ::
    node.children.attach.flatMap fun child =>
      walk descend (descend context node) child.val
termination_by sizeOf node
decreasing_by exact sizeOf_lt_of_mem_children child.property

theorem walk_eq {κ : Type} (descend : κ → Node → κ) (context : κ)
    (node : Node) :
    node.walk descend context =
      (context, node) ::
        node.children.flatMap (walk descend (descend context node)) := by
  rw [walk, List.flatMap_subtype (fun _ _ => rfl), List.unattach_attach]

theorem induction_on_children {motive : Node → Prop}
    (step : ∀ node, (∀ child ∈ node.children, motive child) → motive node)
    (node : Node) : motive node :=
  step node fun child _ => induction_on_children step child
termination_by sizeOf node
decreasing_by exact sizeOf_lt_of_mem_children (by assumption)

def outline (node : Node) : List (Nat × Node) :=
  node.walk (fun depth _ => depth + 1) 0

def preorder (node : Node) : List Node :=
  (node.walk (fun _ _ => ()) ()).map Prod.snd

theorem preorder_eq (node : Node) :
    node.preorder = node :: node.children.flatMap preorder := by
  rw [preorder, walk_eq, List.map_cons, List.map_flatMap]
  rfl

end Node

end ScriptAudit
