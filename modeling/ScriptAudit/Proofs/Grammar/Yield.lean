/-
The yield of a tree: what its nodes and its tokens have in common, in the order of
the tokens.

A name, a literal, a binary operator and the keyword of a declaration each make a
node of the tree. A marking says what to note of such a token and, in agreement,
of the node it makes. Then the marks of a tree, in the order of the tokens its
nodes are made by, are the marks of the tokens it was read from, the headers of
loops left out.
-/

import Mathlib.Data.List.Perm.Basic
import ScriptAudit.Proofs.Grammar.Completeness
import ScriptAudit.Proofs.Grammar.LoopHeader
import ScriptAudit.Proofs.Token.Extent
import ScriptAudit.Proofs.Tree.Preorder

namespace ScriptAudit

namespace Node

/-- How many children of a node stand before the token that makes the node. -/
def operandsBefore : Node → Nat
  | .expression (.binary ..) => 1
  | _ => 0

/-- The nodes from `node` downwards: a binary expression comes between its
operands, any other node before its children. -/
def yield (node : Node) : List Node :=
  (node.children.attach.take node.operandsBefore).flatMap
      (fun child => yield child.val)
    ++ node :: (node.children.attach.drop node.operandsBefore).flatMap
      (fun child => yield child.val)
termination_by sizeOf node
decreasing_by all_goals exact sizeOf_lt_of_mem_children child.property

theorem yield_eq (node : Node) :
    node.yield =
      (node.children.take node.operandsBefore).flatMap yield
        ++ node :: (node.children.drop node.operandsBefore).flatMap yield := by
  have unattached (part : List { child // child ∈ node.children }) :
      part.flatMap (fun child => yield child.val) =
        part.unattach.flatMap yield :=
    List.flatMap_subtype fun _ _ => rfl
  rw [yield, unattached, unattached, List.unattach, List.unattach,
    List.map_take, List.map_drop, List.attach_map_subtype_val]

theorem yield_perm_preorder (node : Node) :
    node.yield.Perm node.preorder := by
  induction node using induction_on_children with
  | step node inductionHypothesis =>
      rw [yield_eq, preorder_eq]
      refine List.perm_middle.trans (.cons node ?_)
      rw [← List.flatMap_append, List.take_append_drop]
      exact List.Perm.flatMap_left node.children inductionHypothesis

/-- Notes that leave out binary expressions come in pre-order. -/
theorem filterMap_yield {μ : Type} {note : Node → Option μ}
    (unmarked : ∀ node, node.kind = .binaryExpression → note node = none)
    (node : Node) :
    node.yield.filterMap note = node.preorder.filterMap note := by
  induction node using induction_on_children with
  | step node inductionHypothesis =>
      have inner (part : List Node) (included : part ⊆ node.children) :
          (part.flatMap yield).filterMap note =
            (part.flatMap preorder).filterMap note := by
        rw [List.filterMap_flatMap, List.filterMap_flatMap]
        exact List.flatMap_congr fun child member =>
          inductionHypothesis child (included member)
      rw [yield_eq, preorder_eq, List.filterMap_append, List.filterMap_cons,
        List.filterMap_cons, inner _ (List.take_subset _ _),
        inner _ (List.drop_subset _ _)]
      by_cases operands : node.operandsBefore = 0
      · rw [operands]
        rfl
      · have binary : node.kind = .binaryExpression := by
          unfold operandsBefore at operands
          split at operands
          · rfl
          · exact absurd rfl operands
        rw [unmarked node binary, ← List.filterMap_append, ← List.flatMap_append,
          List.take_append_drop]

end Node

namespace Grammar

/-! ### Tokens outside loop headers -/

def Region.outside (region : Region) : List Token → List Token
  | [] => []
  | token :: rest =>
      if region.isHeader then (region.next token).outside rest
      else token :: (region.next token).outside rest

def outsideHeaders (tokens : List Token) : List Token :=
  Region.code.outside tokens

theorem Region.outside_append (region : Region) (front back : List Token) :
    region.outside (front ++ back) =
      region.outside front ++ (region.after front).outside back := by
  induction front generalizing region with
  | nil => rfl
  | cons token rest inductionHypothesis =>
      rw [List.cons_append, outside, outside, after_cons, inductionHypothesis]
      split <;> rfl

theorem outsideHeaders_append {front : List Token} (back : List Token)
    (settled : Region.code.after front = .code) :
    outsideHeaders (front ++ back) =
      outsideHeaders front ++ outsideHeaders back := by
  unfold outsideHeaders
  rw [Region.outside_append, settled]

theorem outsideHeaders_cons {token : Token} (rest : List Token)
    (plain : Region.code.next token = .code) :
    outsideHeaders (token :: rest) = token :: outsideHeaders rest := by
  unfold outsideHeaders
  rw [Region.outside, plain]
  rfl

theorem Stays.outside {first last : Region} {tokens : List Token}
    (stays : Stays first last tokens) : first.outside tokens = [] := by
  induction tokens generalizing first with
  | nil => rfl
  | cons token rest inductionHypothesis =>
      have header : first.isHeader = true := stays.inside [] List.nil_prefix
      rw [Region.outside, if_pos header]
      refine inductionHypothesis ⟨stays.ends, fun front within => ?_⟩
      exact stays.inside (token :: front)
        ((List.prefix_cons_inj token).mpr within)

/-- Of a loop up to its body, the keyword and the opening parenthesis are
outside the header. -/
theorem outsideHeaders_loop {keyword opening closing : Token}
    {header : List Token} (rest : List Token)
    (spelled : isLoopKeyword keyword = true) (opens : opening.kind = .leftParen)
    (balanced : Balanced header) (closes : closing.kind = .rightParen) :
    outsideHeaders (keyword :: opening :: header ++ closing :: rest) =
      keyword :: opening :: outsideHeaders rest := by
  have entered := enters_header spelled opens
  have outside : (Region.code.next keyword).isHeader = false := by
    simp [Region.next, spelled, Region.isHeader]
  have left := (after_header spelled opens balanced closes).2
  simp only [outsideHeaders, List.cons_append, Region.outside, outside, entered]
  rw [Region.outside_append, (balanced.stays 0).outside,
    (balanced.stays 0).ends, Region.outside, left]
  rfl

/-! ### Markings -/

def structuralKinds : List Token.Kind :=
  [.assignment, .unary, .semicolon, .comma, .dot, .colon, .leftParen,
    .rightParen, .leftBrace, .rightBrace, .leftBracket, .rightBracket, .endOfFile]

def controlKeywords : List Bytes :=
  ["function", "return", "if", "else", "while", "for"]

def isMarkable (node : Node) : Bool :=
  [Node.Kind.identifier, .literal, .binaryExpression,
    .variableDeclaration].contains node.kind

/-- What to note of tokens and, in agreement, of the nodes they make. -/
structure Marking (μ : Type) where
  ofToken : Token → Option μ
  ofNode : Node → Option μ
  name : ∀ token, token.kind = .identifier →
    ofToken token = ofNode (.ofIdentifier (identifierOf token))
  literal : ∀ token content, literal? token = some content →
    ofToken token = ofNode (.expression (.literal content))
  operator : ∀ rank ∈ ranks, ∀ token left right position,
    rank.admits token = true → ofToken token =
      ofNode (.expression (.binary token.lexeme left right position))
  declaration : ∀ token contents,
    token.isSpelled .keyword ["var", "let", "const"] = true → ofToken token =
      ofNode (.statement (.declaration token.lexeme contents token.position))
  structural : ∀ token, token.kind ∈ structuralKinds → ofToken token = none
  control : ∀ token, token.isSpelled .keyword controlKeywords = true →
    ofToken token = none
  others : ∀ node, isMarkable node = false → ofNode node = none

namespace Marking

variable {μ : Type} (marking : Marking μ)

def inTokens (tokens : List Token) : List μ :=
  (outsideHeaders tokens).filterMap marking.ofToken

def inTrees (roots : List Node) : List μ :=
  (roots.flatMap Node.yield).filterMap marking.ofNode

def Agrees (tokens : List Token) (roots : List Node) : Prop :=
  marking.inTokens tokens = marking.inTrees roots

theorem inTokens_append {front : List Token} (back : List Token)
    (settled : Region.code.after front = .code) :
    marking.inTokens (front ++ back) =
      marking.inTokens front ++ marking.inTokens back := by
  rw [inTokens, outsideHeaders_append back settled, List.filterMap_append]
  rfl

theorem inTokens_cons {token : Token} (rest : List Token)
    (plain : Region.code.next token = .code) :
    marking.inTokens (token :: rest) =
      (marking.ofToken token).toList ++ marking.inTokens rest := by
  rw [inTokens, outsideHeaders_cons rest plain, List.filterMap_cons]
  cases marking.ofToken token <;> rfl

theorem inTrees_append (front back : List Node) :
    marking.inTrees (front ++ back) =
      marking.inTrees front ++ marking.inTrees back := by
  unfold inTrees
  rw [List.flatMap_append, List.filterMap_append]

theorem inTrees_node (node : Node) :
    marking.inTrees [node] =
      marking.inTrees (node.children.take node.operandsBefore)
        ++ (marking.ofNode node).toList
        ++ marking.inTrees (node.children.drop node.operandsBefore) := by
  unfold inTrees
  rw [List.flatMap_singleton, Node.yield_eq, List.filterMap_append,
    List.filterMap_cons]
  cases marking.ofNode node <;> simp

end Marking

namespace Marking.Agrees

variable {μ : Type} {marking : Marking μ} {tokens front back : List Token}
  {token : Token} {roots others : List Node} {node : Node}

theorem nil : marking.Agrees [] [] :=
  rfl

theorem append (settled : Region.code.after front = .code)
    (first : marking.Agrees front roots) (second : marking.Agrees back others) :
    marking.Agrees (front ++ back) (roots ++ others) := by
  unfold Agrees at first second ⊢
  rw [inTokens_append marking back settled, inTrees_append, first, second]

theorem skip {kind : Token.Kind} (known : token.kind = kind)
    (rest : marking.Agrees tokens roots)
    (listed : kind ∈ structuralKinds := by decide) :
    marking.Agrees (token :: tokens) roots := by
  subst known
  have plain : Region.code.next token = .code := by
    refine next_code_of_kind rfl ?_
    intro keyword
    rw [keyword] at listed
    revert listed
    decide
  unfold Agrees
  rw [inTokens_cons marking tokens plain, marking.structural token listed]
  exact rest

theorem skipKeyword {spellings : List Bytes}
    (spelled : token.isSpelled .keyword spellings = true)
    (rest : marking.Agrees tokens roots)
    (plain : ∀ spelling ∈ spellings,
      spelling ∉ (["while", "for"] : List Bytes) := by decide)
    (controls : ∀ spelling ∈ spellings, spelling ∈ controlKeywords := by decide) :
    marking.Agrees (token :: tokens) roots := by
  unfold Agrees
  rw [inTokens_cons marking tokens (next_code_of_isSpelled spelled plain),
    marking.control token (isSpelled_mono spelled controls)]
  exact rest

theorem parted {kind : Token.Kind} (settled : Region.code.after front = .code)
    (known : token.kind = kind) (first : marking.Agrees front roots)
    (second : marking.Agrees back others)
    (listed : kind ∈ structuralKinds := by decide) :
    marking.Agrees (front ++ token :: back) (roots ++ others) :=
  first.append settled (second.skip known listed)

theorem closed {kind : Token.Kind} (settled : Region.code.after front = .code)
    (known : token.kind = kind) (inner : marking.Agrees front roots)
    (listed : kind ∈ structuralKinds := by decide) :
    marking.Agrees (front ++ [token]) roots := by
  have both := inner.parted settled known .nil listed
  rwa [List.append_nil] at both

theorem terminated {terminator : List Token}
    (settled : Region.code.after front = .code)
    (ends : Terminator terminator) (inner : marking.Agrees front roots) :
    marking.Agrees (front ++ terminator) roots := by
  cases ends with
  | absent => rwa [List.append_nil]
  | semicolon kind => exact inner.closed settled kind

theorem unmarked (other : isMarkable node = false)
    (below : marking.Agrees tokens node.children) :
    marking.Agrees tokens [node] := by
  have first : node.operandsBefore = 0 := by
    unfold Node.operandsBefore
    split
    · cases other
    · rfl
  unfold Agrees at below ⊢
  rw [inTrees_node, first, marking.others node other, below]
  rfl

theorem marked (plain : Region.code.next token = .code)
    (first : node.operandsBefore = 0)
    (same : marking.ofToken token = marking.ofNode node)
    (below : marking.Agrees tokens node.children) :
    marking.Agrees (token :: tokens) [node] := by
  unfold Agrees at below ⊢
  rw [inTokens_cons marking tokens plain, inTrees_node, first, same, below]
  rfl

theorem name (kind : token.kind = .identifier) :
    marking.Agrees [token] [.ofIdentifier (identifierOf token)] :=
  marked (next_code_of_kind kind) rfl (marking.name token kind) .nil

theorem named (kind : token.kind = .identifier)
    (rest : marking.Agrees tokens roots) :
    marking.Agrees (token :: tokens)
      (.ofIdentifier (identifierOf token) :: roots) := by
  have settled : Region.code.after [token] = .code := next_code_of_kind kind
  exact (name kind).append settled rest

theorem literal {content : Literal} (writes : literal? token = some content) :
    marking.Agrees [token] [.expression (.literal content)] := by
  refine marked (next_code_of_kind rfl ?_) rfl
    (marking.literal token content writes) .nil
  intro keyword
  have kind := kind_of_literal? writes
  rw [keyword] at kind
  revert kind
  decide

theorem binary {rank : Rank} {left right : Expr} {position : Position}
    (known : rank ∈ ranks) (admitted : rank.admits token = true)
    (settled : Region.code.after front = .code)
    (first : marking.Agrees front [.expression left])
    (second : marking.Agrees back [.expression right]) :
    marking.Agrees (front ++ token :: back)
      [.expression (.binary token.lexeme left right position)] := by
  unfold Agrees at first second ⊢
  have plain := next_code_of_admits known admitted
  have same := marking.operator rank known token left right position admitted
  rw [inTokens_append marking _ settled, inTokens_cons marking back plain,
    first, second, same, inTrees_node marking (.expression (.binary ..)),
    List.append_assoc]
  rfl

theorem header {keyword opening closing : Token} {header : List Token}
    (spelled : isLoopKeyword keyword = true) (opens : opening.kind = .leftParen)
    (balanced : Balanced header) (closes : closing.kind = .rightParen)
    (rest : marking.Agrees tokens roots) :
    marking.Agrees (keyword :: opening :: header ++ closing :: tokens) roots := by
  have control := marking.control keyword (isSpelled_mono spelled (by decide))
  have silent := marking.structural opening (by rw [opens]; decide)
  unfold Agrees inTokens
  rw [outsideHeaders_loop tokens spelled opens balanced closes,
    List.filterMap_cons_none control, List.filterMap_cons_none silent]
  exact rest

end Marking.Agrees

/-! ### Derivations -/

/-- The marks of a phrase are those of its tokens. -/
theorem Derives.agrees {μ : Type} (marking : Marking μ) {phrase : Phrase}
    {tokens : List Token} (derivation : Derives phrase tokens) :
    phrase.Proper → marking.Agrees tokens phrase.roots := by
  induction derivation with
  | identifier kind | oneParameter kind => exact fun _ => .name kind
  | literal writes => exact fun _ => .literal writes
  | parenthesized opens inner closes nested =>
      intro _
      exact ((nested trivial).closed (inner.after_code trivial) closes).skip opens
  | array opens list closes items | object opens list closes items =>
      intro _
      refine .unmarked rfl ?_
      exact ((items trivial).closed (list.after_code trivial) closes).skip opens
  | member target dotted kind object =>
      intro _
      refine .unmarked rfl ?_
      exact (object trivial).parted (target.after_code trivial) dotted
        (.name kind)
  | index target opens inner closes object selector =>
      intro _
      refine .unmarked rfl ?_
      rw [List.append_assoc]
      exact (object trivial).parted (target.after_code trivial) opens
        ((selector trivial).closed (inner.after_code trivial) closes)
  | call target opens list closes callee arguments =>
      intro _
      refine .unmarked rfl ?_
      rw [List.append_assoc]
      exact (callee trivial).parted (target.after_code trivial) opens
        ((arguments trivial).closed (list.after_code trivial) closes)
  | update operand updates accessed =>
      intro _
      refine .unmarked rfl ?_
      exact (accessed trivial).closed (operand.after_code trivial)
        (kind_of_isUpdate updates)
  | operator kind _ operand =>
      intro _
      exact .unmarked rfl ((operand trivial).skip kind)
  | join chain admitted _ left right =>
      intro proper
      exact .binary proper.1 admitted (chain.after_code proper) (left proper)
        (right proper.2)
  | assignment target kind _ ladder assigned =>
      intro _
      refine .unmarked rfl ?_
      exact (ladder fun _ member => member).parted
        (target.after_code fun _ member => member) kind (assigned trivial)
  | moreExpressions first kind _ head tail | moreProperties first kind _ head tail
  | moreDeclarators first kind _ head tail =>
      intro _
      exact (head trivial).parted (first.after_code trivial) kind (tail trivial)
  | namedProperty kind colonKind _ content =>
      intro _
      refine .unmarked rfl ?_
      exact .named kind ((content trivial).skip colonKind)
  | @quotedProperty quote colon key _ tokens kind writes colonKind _ content =>
      intro _
      refine .unmarked rfl ?_
      have settled : Region.code.after [quote] = .code := next_code_of_kind kind
      exact (Marking.Agrees.literal writes).append settled
        ((content trivial).skip colonKind)
  | moreParameters kind commaKind _ tail =>
      intro _
      exact .named kind ((tail trivial).skip commaKind)
  | declared kind => exact fun _ => .unmarked rfl (.name kind)
  | initialized kind spelled _ init =>
      intro _
      refine .unmarked rfl ?_
      exact .named kind ((init trivial).skip (kind_of_isSpelled spelled))
  | declaration spelled list ends contents =>
      intro _
      exact .marked (next_code_of_isSpelled spelled) rfl
        (marking.declaration _ _ spelled)
        ((contents trivial).terminated (list.after_code trivial) ends)
  | function spelled kind opens names closes _ parameters block =>
      intro _
      refine .unmarked rfl (.skipKeyword spelled (.named kind ?_))
      rw [List.map_map]
      exact ((parameters trivial).parted (names.after_code trivial) closes
        (block trivial)).skip opens
  | returnNothing spelled ends =>
      intro _
      refine .unmarked rfl (.skipKeyword spelled ?_)
      exact Marking.Agrees.nil.terminated rfl ends
  | returnValue spelled value ends argument =>
      intro _
      refine .unmarked rfl (.skipKeyword spelled ?_)
      exact (argument trivial).terminated (value.after_code trivial) ends
  | ifThen spelled opens test closes _ condition branch =>
      intro _
      refine .unmarked rfl (.skipKeyword spelled ?_)
      exact ((condition trivial).parted (test.after_code trivial) closes
        (branch trivial)).skip opens
  | ifElse spelled opens test closes consequent elseSpelled _ condition branch
      other =>
      intro _
      refine .unmarked rfl ?_
      rw [List.append_assoc]
      have alternate := (other trivial).skipKeyword elseSpelled
      have branches := (branch trivial).append (consequent.after_code trivial)
        alternate
      exact (((condition trivial).parted (test.after_code trivial) closes
        branches).skip opens).skipKeyword spelled
  | loop spelled opens balanced closes _ repeated =>
      intro _
      refine .unmarked (by cases loopKind _ <;> rfl) ?_
      exact .header spelled opens balanced closes (repeated trivial)
  | expressionStatement _ value ends content =>
      intro _
      refine .unmarked rfl ?_
      exact (content trivial).terminated (value.after_code trivial) ends
  | block opens list closes statements =>
      intro _
      refine .unmarked rfl ?_
      exact ((statements trivial).closed (list.after_code trivial) closes).skip
        opens
  | moreStatements first _ head tail =>
      intro _
      exact (head trivial).append (first.after_code trivial) (tail trivial)
  | noExpressions | noProperties | noParameters | noStatements =>
      exact fun _ => .nil
  | bare _ same | settled _ same | operand _ same | innermost _ same
  | oneExpression _ same | oneProperty _ same | oneDeclarator _ same
  | blockStatement _ same =>
      exact fun _ => same trivial
  | first _ same => exact fun proper => same proper.2
  | rank _ same =>
      intro proper
      exact same (List.forall_mem_cons.mp proper)
  | simple _ same => exact fun _ => same fun _ member => member

end Grammar

open Grammar

theorem derives_parseTokens {all : List Token}
    (clean : (parseTokens all).diagnostics = []) :
    Derives (.statements (parseTokens all).program.body)
      (Token.Stream.ofTokens all).tokens := by
  have reading := (parseTokens_eq_iff all _).mp ⟨clean, rfl⟩
  obtain ⟨front, same, derivation⟩ := reading.derives
  rw [List.append_nil] at same
  rwa [← same] at derivation

/--
In a source that is read without diagnostics, the marks of the tokens outside the
headers of loops are the marks of the program, in the order of the tokens.
-/
theorem marks_parse {μ : Type} (marking : Marking μ) {source : Bytes}
    (clean : (parse source).diagnostics = []) :
    (outsideHeaders (significant source)).filterMap marking.ofToken =
      (Node.program (parse source).program).yield.filterMap marking.ofNode := by
  have derivation := derives_parseTokens clean
  have kind : (Token.finish (placeAfter source)).kind = .endOfFile := rfl
  have finished : marking.Agrees [Token.finish (placeAfter source)] [] :=
    Marking.Agrees.nil.skip kind
  have whole := (derivation.agrees marking trivial).append
    (derivation.after_code trivial) finished
  rw [← significant_eq_append, List.append_nil] at whole
  have program : marking.Agrees (significant source)
      [.program (parse source).program] :=
    .unmarked rfl whole
  unfold Marking.Agrees Marking.inTrees at program
  rwa [List.flatMap_singleton] at program

end ScriptAudit
