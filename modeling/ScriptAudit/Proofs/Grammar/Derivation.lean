/-
The grammar as a system of derivations: which stretches of tokens stand for
which trees, said without any reader, budget or lookahead.

A phrase is a syntactic category together with the tree it stands for. The rules
are those of the language: an expression in parentheses stands for itself, any
unary token may stand before an operand, any assignment token may assign, and a
loop header is any run of tokens whose parentheses match.
-/

import ScriptAudit.Grammar.Program
import ScriptAudit.Tree.Node

namespace ScriptAudit.Grammar

/-- A syntactic category with the tree that one of its members stands for. -/
inductive Phrase where
  | primary (value : Expr)
  | accessed (value : Expr)
  | updated (value : Expr)
  | unary (value : Expr)
  | chain (rank : Rank) (tighter : List Rank) (value : Expr)
  | binary (ranks : List Rank) (value : Expr)
  | expression (value : Expr)
  | expressions (values : List Expr)
  | property (entry : Property)
  | properties (entries : List Property)
  | parameters (names : List Token)
  | declarator (content : Declarator)
  | declarators (contents : List Declarator)
  | block (body : List Statement) (position : Position)
  | statement (content : Statement)
  | statements (contents : List Statement)

def Phrase.roots : Phrase → List Node
  | .primary value | .accessed value | .updated value | .unary value =>
      [.expression value]
  | .chain _ _ value | .binary _ value | .expression value =>
      [.expression value]
  | .expressions values => values.map .expression
  | .property entry => [.property entry]
  | .properties entries => entries.map .property
  | .parameters names => names.map fun name => .ofIdentifier (identifierOf name)
  | .declarator content => [.declarator content]
  | .declarators contents => contents.map .declarator
  | .block body position => [.statement (.block body position)]
  | .statement content => [.statement content]
  | .statements contents => contents.map .statement

inductive Balanced : List Token → Prop where
  | nil : Balanced []
  | token {token : Token} {rest : List Token}
      (notOpening : token.kind ≠ .leftParen)
      (notClosing : token.kind ≠ .rightParen)
      (balanced : Balanced rest) :
      Balanced (token :: rest)
  | group {opening closing : Token} {inner rest : List Token}
      (opens : opening.kind = .leftParen)
      (closes : closing.kind = .rightParen)
      (innerBalanced : Balanced inner) (restBalanced : Balanced rest) :
      Balanced (opening :: inner ++ closing :: rest)

inductive Terminator : List Token → Prop where
  | absent : Terminator []
  | semicolon {mark : Token} (kind : mark.kind = .semicolon) :
      Terminator [mark]

def begins (test : Token → Bool) (tokens : List Token) : Bool :=
  tokens.head?.any test

@[simp] theorem begins_nil (test : Token → Bool) : begins test [] = false :=
  rfl

@[simp] theorem begins_cons (test : Token → Bool) (token : Token)
    (rest : List Token) : begins test (token :: rest) = test token :=
  rfl

theorem begins_append {test : Token → Bool} {front : List Token}
    (rest : List Token) (holds : begins test front = true) :
    begins test (front ++ rest) = true := by
  cases front with
  | nil => cases holds
  | cons token others => exact holds

theorem begins_of_append {test : Token → Bool} {front rest : List Token}
    (fails : begins test (front ++ rest) = false) :
    begins test front = false := by
  cases front with
  | nil => rfl
  | cons token others => exact fails

theorem begins_mono {stronger weaker : Token → Bool} {tokens : List Token}
    (weaken : ∀ token, stronger token = true → weaker token = true)
    (holds : begins stronger tokens = true) : begins weaker tokens = true := by
  cases tokens with
  | nil => cases holds
  | cons token others => exact weaken token holds

theorem ne_nil_of_begins {test : Token → Bool} {tokens : List Token}
    (holds : begins test tokens = true) : tokens ≠ [] := by
  rintro rfl
  cases holds

theorem isSpelled_iff {token : Token} {kind : Token.Kind}
    {spellings : List Bytes} :
    token.isSpelled kind spellings = true ↔
      token.kind = kind ∧ token.lexeme ∈ spellings := by
  rw [Token.isSpelled, Bool.and_eq_true, beq_iff_eq, List.contains_iff_mem]

theorem kind_of_isSpelled {token : Token} {kind : Token.Kind}
    {spellings : List Bytes} (spelled : token.isSpelled kind spellings = true) :
    token.kind = kind :=
  (isSpelled_iff.mp spelled).1

theorem isSpelled_mono {token : Token} {kind : Token.Kind}
    {spellings others : List Bytes}
    (spelled : token.isSpelled kind spellings = true)
    (included : ∀ spelling ∈ spellings, spelling ∈ others) :
    token.isSpelled kind others = true := by
  rw [isSpelled_iff] at spelled ⊢
  exact ⟨spelled.1, included _ spelled.2⟩

theorem not_isSpelled_of_disjoint {token : Token} {kind : Token.Kind}
    {spellings others : List Bytes}
    (spelled : token.isSpelled kind spellings = true)
    (disjoint : ∀ spelling ∈ spellings, spelling ∉ others := by decide) :
    ¬token.isSpelled kind others = true := by
  rw [isSpelled_iff] at spelled ⊢
  exact fun both => disjoint _ spelled.2 both.2

def opensBrace (token : Token) : Bool :=
  token.kind == .leftBrace

def isUpdate (token : Token) : Bool :=
  token.isSpelled .unary updates

theorem kind_of_isUpdate {token : Token} (updates : isUpdate token = true) :
    token.kind = .unary :=
  kind_of_isSpelled updates

def isElse (token : Token) : Bool :=
  token.isSpelled .keyword ["else"]

/-- The derivations of the language, one rule for each form of a phrase. -/
inductive Derives : Phrase → List Token → Prop where
  /- Primary expressions -/
  | identifier {name : Token} (kind : name.kind = .identifier) :
      Derives (.primary (.identifier (identifierOf name))) [name]
  | literal {token : Token} {content : Literal}
      (writes : literal? token = some content) :
      Derives (.primary (.literal content)) [token]
  | parenthesized {opening closing : Token} {inner : List Token} {value : Expr}
      (opens : opening.kind = .leftParen)
      (nested : Derives (.expression value) inner)
      (closes : closing.kind = .rightParen) :
      Derives (.primary value) (opening :: inner ++ [closing])
  | array {opening closing : Token} {inner : List Token} {values : List Expr}
      (opens : opening.kind = .leftBracket)
      (elements : Derives (.expressions values) inner)
      (closes : closing.kind = .rightBracket) :
      Derives (.primary (.array values opening.position))
        (opening :: inner ++ [closing])
  | object {opening closing : Token} {inner : List Token}
      {entries : List Property}
      (opens : opening.kind = .leftBrace)
      (properties : Derives (.properties entries) inner)
      (closes : closing.kind = .rightBrace) :
      Derives (.primary (.object entries opening.position))
        (opening :: inner ++ [closing])
  /- Accesses, which group to the left -/
  | bare {value : Expr} {tokens : List Token}
      (primary : Derives (.primary value) tokens) :
      Derives (.accessed value) tokens
  | member {target : Expr} {front : List Token} {dot name : Token}
      (object : Derives (.accessed target) front)
      (dotted : dot.kind = .dot) (kind : name.kind = .identifier) :
      Derives
        (.accessed (.member target (.identifier (identifierOf name)) false
          target.position))
        (front ++ [dot, name])
  | index {target value : Expr} {front inner : List Token}
      {opening closing : Token}
      (object : Derives (.accessed target) front)
      (opens : opening.kind = .leftBracket)
      (selector : Derives (.expression value) inner)
      (closes : closing.kind = .rightBracket) :
      Derives (.accessed (.member target value true target.position))
        (front ++ opening :: inner ++ [closing])
  | call {target : Expr} {values : List Expr} {front inner : List Token}
      {opening closing : Token}
      (callee : Derives (.accessed target) front)
      (opens : opening.kind = .leftParen)
      (arguments : Derives (.expressions values) inner)
      (closes : closing.kind = .rightParen) :
      Derives (.accessed (.call target values target.position))
        (front ++ opening :: inner ++ [closing])
  /- Operators with one operand -/
  | settled {value : Expr} {tokens : List Token}
      (accessed : Derives (.accessed value) tokens) :
      Derives (.updated value) tokens
  | update {value : Expr} {front : List Token} {operator : Token}
      (accessed : Derives (.accessed value) front)
      (updates : isUpdate operator = true) :
      Derives (.updated (.unary operator.lexeme .after value value.position))
        (front ++ [operator])
  | operand {value : Expr} {tokens : List Token}
      (updated : Derives (.updated value) tokens) :
      Derives (.unary value) tokens
  | operator {value : Expr} {tokens : List Token} {operator : Token}
      (kind : operator.kind = .unary)
      (operand : Derives (.unary value) tokens) :
      Derives
        (.unary (.unary operator.lexeme .before value operator.position))
        (operator :: tokens)
  /- Operators with two operands: each rank is a chain of tighter operands -/
  | first {rank : Rank} {tighter : List Rank} {value : Expr}
      {tokens : List Token}
      (operand : Derives (.binary tighter value) tokens) :
      Derives (.chain rank tighter value) tokens
  | join {rank : Rank} {tighter : List Rank} {left right : Expr}
      {front back : List Token} {operator : Token}
      (chain : Derives (.chain rank tighter left) front)
      (admitted : rank.admits operator = true)
      (operand : Derives (.binary tighter right) back) :
      Derives
        (.chain rank tighter
          (.binary operator.lexeme left right left.position))
        (front ++ operator :: back)
  | innermost {value : Expr} {tokens : List Token}
      (unary : Derives (.unary value) tokens) :
      Derives (.binary [] value) tokens
  | rank {rank : Rank} {tighter : List Rank} {value : Expr}
      {tokens : List Token}
      (chain : Derives (.chain rank tighter value) tokens) :
      Derives (.binary (rank :: tighter) value) tokens
  /- Whole expressions: assignments group to the right -/
  | simple {value : Expr} {tokens : List Token}
      (ladder : Derives (.binary ranks value) tokens) :
      Derives (.expression value) tokens
  | assignment {target value : Expr} {front back : List Token}
      {operator : Token}
      (ladder : Derives (.binary ranks target) front)
      (kind : operator.kind = .assignment)
      (assigned : Derives (.expression value) back) :
      Derives
        (.expression
          (.assignment operator.lexeme target value target.position))
        (front ++ operator :: back)
  /- Lists with commas between the members -/
  | noExpressions : Derives (.expressions []) []
  | oneExpression {value : Expr} {tokens : List Token}
      (only : Derives (.expression value) tokens) :
      Derives (.expressions [value]) tokens
  | moreExpressions {value next : Expr} {others : List Expr}
      {front back : List Token} {comma : Token}
      (head : Derives (.expression value) front)
      (kind : comma.kind = .comma)
      (tail : Derives (.expressions (next :: others)) back) :
      Derives (.expressions (value :: next :: others)) (front ++ comma :: back)
  | namedProperty {name colon : Token} {value : Expr} {tokens : List Token}
      (kind : name.kind = .identifier) (colonKind : colon.kind = .colon)
      (content : Derives (.expression value) tokens) :
      Derives
        (.property
          (.entry (.identifier (identifierOf name)) value name.position))
        (name :: colon :: tokens)
  | quotedProperty {quote colon : Token} {key : Literal} {value : Expr}
      {tokens : List Token}
      (kind : quote.kind = .string) (writes : literal? quote = some key)
      (colonKind : colon.kind = .colon)
      (content : Derives (.expression value) tokens) :
      Derives (.property (.entry (.literal key) value quote.position))
        (quote :: colon :: tokens)
  | noProperties : Derives (.properties []) []
  | oneProperty {entry : Property} {tokens : List Token}
      (only : Derives (.property entry) tokens) :
      Derives (.properties [entry]) tokens
  | moreProperties {entry next : Property} {others : List Property}
      {front back : List Token} {comma : Token}
      (head : Derives (.property entry) front)
      (kind : comma.kind = .comma)
      (tail : Derives (.properties (next :: others)) back) :
      Derives (.properties (entry :: next :: others)) (front ++ comma :: back)
  | noParameters : Derives (.parameters []) []
  | oneParameter {name : Token} (kind : name.kind = .identifier) :
      Derives (.parameters [name]) [name]
  | moreParameters {name next comma : Token} {others : List Token}
      {back : List Token}
      (kind : name.kind = .identifier) (commaKind : comma.kind = .comma)
      (tail : Derives (.parameters (next :: others)) back) :
      Derives (.parameters (name :: next :: others)) (name :: comma :: back)
  /- Declarations -/
  | declared {name : Token} (kind : name.kind = .identifier) :
      Derives (.declarator ⟨identifierOf name, none, name.position⟩) [name]
  | initialized {name equals : Token} {value : Expr} {tokens : List Token}
      (kind : name.kind = .identifier)
      (spelled : equals.isSpelled .assignment ["="] = true)
      (init : Derives (.expression value) tokens) :
      Derives (.declarator ⟨identifierOf name, some value, name.position⟩)
        (name :: equals :: tokens)
  | oneDeclarator {content : Declarator} {tokens : List Token}
      (only : Derives (.declarator content) tokens) :
      Derives (.declarators [content]) tokens
  | moreDeclarators {content next : Declarator} {others : List Declarator}
      {front back : List Token} {comma : Token}
      (head : Derives (.declarator content) front)
      (kind : comma.kind = .comma)
      (tail : Derives (.declarators (next :: others)) back) :
      Derives (.declarators (content :: next :: others))
        (front ++ comma :: back)
  /- Statements -/
  | declaration {keyword : Token} {contents : List Declarator}
      {front terminator : List Token}
      (spelled : keyword.isSpelled .keyword ["var", "let", "const"] = true)
      (list : Derives (.declarators contents) front)
      (ends : Terminator terminator) :
      Derives
        (.statement
          (.declaration keyword.lexeme contents keyword.position))
        (keyword :: front ++ terminator)
  | function {keyword name opening closing : Token}
      {names inner blockTokens : List Token} {body : List Statement}
      {bodyPosition : Position}
      (spelled : keyword.isSpelled .keyword ["function"] = true)
      (kind : name.kind = .identifier)
      (opens : opening.kind = .leftParen)
      (parameters : Derives (.parameters names) inner)
      (closes : closing.kind = .rightParen)
      (block : Derives (.block body bodyPosition) blockTokens) :
      Derives
        (.statement
          (.function (identifierOf name) (names.map identifierOf) body
            bodyPosition keyword.position))
        (keyword :: name :: opening :: inner ++ closing :: blockTokens)
  | returnNothing {keyword : Token} {terminator : List Token}
      (spelled : keyword.isSpelled .keyword ["return"] = true)
      (ends : Terminator terminator) :
      Derives (.statement (.returning none keyword.position))
        (keyword :: terminator)
  | returnValue {keyword : Token} {value : Expr} {front terminator : List Token}
      (spelled : keyword.isSpelled .keyword ["return"] = true)
      (argument : Derives (.expression value) front)
      (ends : Terminator terminator) :
      Derives (.statement (.returning (some value) keyword.position))
        (keyword :: front ++ terminator)
  | ifThen {keyword opening closing : Token} {test : Expr}
      {consequent : Statement} {inner front : List Token}
      (spelled : keyword.isSpelled .keyword ["if"] = true)
      (opens : opening.kind = .leftParen)
      (condition : Derives (.expression test) inner)
      (closes : closing.kind = .rightParen)
      (branch : Derives (.statement consequent) front) :
      Derives (.statement (.ifThen test consequent keyword.position))
        (keyword :: opening :: inner ++ closing :: front)
  | ifElse {keyword opening closing otherwise : Token} {test : Expr}
      {consequent alternate : Statement} {inner front back : List Token}
      (spelled : keyword.isSpelled .keyword ["if"] = true)
      (opens : opening.kind = .leftParen)
      (condition : Derives (.expression test) inner)
      (closes : closing.kind = .rightParen)
      (branch : Derives (.statement consequent) front)
      (elseSpelled : isElse otherwise = true)
      (other : Derives (.statement alternate) back) :
      Derives
        (.statement (.ifElse test consequent alternate keyword.position))
        (keyword :: opening :: inner ++ closing :: front ++ otherwise :: back)
  | loop {keyword opening closing : Token} {body : Statement}
      {header front : List Token}
      (spelled : keyword.isSpelled .keyword ["while", "for"] = true)
      (opens : opening.kind = .leftParen)
      (balanced : Balanced header)
      (closes : closing.kind = .rightParen)
      (repeated : Derives (.statement body) front) :
      Derives (.statement (.loop (loopKind keyword) body keyword.position))
        (keyword :: opening :: header ++ closing :: front)
  | blockStatement {body : List Statement} {position : Position}
      {tokens : List Token}
      (block : Derives (.block body position) tokens) :
      Derives (.statement (.block body position)) tokens
  /- A brace at the start of a statement always opens a block -/
  | expressionStatement {value : Expr} {front terminator : List Token}
      (notBlock : begins opensBrace front = false)
      (content : Derives (.expression value) front)
      (ends : Terminator terminator) :
      Derives (.statement (.expression value value.position))
        (front ++ terminator)
  | block {opening closing : Token} {body : List Statement}
      {inner : List Token}
      (opens : opening.kind = .leftBrace)
      (list : Derives (.statements body) inner)
      (closes : closing.kind = .rightBrace) :
      Derives (.block body opening.position) (opening :: inner ++ [closing])
  | noStatements : Derives (.statements []) []
  | moreStatements {content : Statement} {others : List Statement}
      {front back : List Token}
      (head : Derives (.statement content) front)
      (tail : Derives (.statements others) back) :
      Derives (.statements (content :: others)) (front ++ back)

/-! ### First tokens -/

def literalKinds : List Token.Kind :=
  [.number, .string, .boolean, .null]

def primaryKinds : List Token.Kind :=
  .identifier :: .leftParen :: .leftBracket :: .leftBrace :: literalKinds

def isName (token : Token) : Bool :=
  token.kind == .identifier

def opensPrimary (token : Token) : Bool :=
  primaryKinds.contains token.kind

def opensExpression (token : Token) : Bool :=
  token.kind == .unary || opensPrimary token

def opensProperty (token : Token) : Bool :=
  token.kind == .identifier || token.kind == .string

def opensStatement (token : Token) : Bool :=
  startsStatement token || opensBrace token || opensExpression token

/-- What the first token of a phrase is like, unless the phrase is empty. -/
def Phrase.first? : Phrase → Option (Token → Bool)
  | .primary _ | .accessed _ | .updated _ => some opensPrimary
  | .unary _ | .chain .. | .binary .. | .expression _ => some opensExpression
  | .expressions (_ :: _) => some opensExpression
  | .property _ | .properties (_ :: _) => some opensProperty
  | .parameters (_ :: _) | .declarator _ | .declarators _ => some isName
  | .block .. => some opensBrace
  | .statement _ | .statements (_ :: _) => some opensStatement
  | .expressions [] | .properties [] | .parameters [] | .statements [] => none

theorem kind_of_literal? {token : Token} {content : Literal}
    (writes : literal? token = some content) : token.kind ∈ literalKinds := by
  obtain ⟨kind, lexeme, position⟩ := token
  cases kind <;> simp [literal?, literalValue?] at writes <;> simp [literalKinds]

theorem position_of_literal? {token : Token} {content : Literal}
    (writes : literal? token = some content) :
    content.position = token.position := by
  obtain ⟨value, _, rfl⟩ := Option.map_eq_some_iff.mp writes
  rfl

theorem startsStatement_of_isSpelled {token : Token} {spellings : List Bytes}
    (spelled : token.isSpelled .keyword spellings = true)
    (included : ∀ spelling ∈ spellings, spelling ∈
      (["function", "var", "let", "const", "if", "while", "for", "return"] :
        List Bytes)) :
    startsStatement token = true :=
  isSpelled_mono spelled included

theorem Derives.begins_first {phrase : Phrase} {tokens : List Token}
    (derivation : Derives phrase tokens) :
    ∀ test, phrase.first? = some test → begins test tokens = true := by
  induction derivation with
  | literal writes =>
      rintro test ⟨⟩
      have kind := kind_of_literal? writes
      simp [opensPrimary, primaryKinds, kind]
  | operand _ updated =>
      rintro test ⟨⟩
      exact begins_mono (by simp_all [opensExpression]) (updated _ rfl)
  | declaration spelled | function spelled | returnNothing spelled
  | returnValue spelled | ifThen spelled | ifElse spelled | loop spelled =>
      rintro test ⟨⟩
      simp [opensStatement, startsStatement_of_isSpelled spelled]
  | blockStatement _ block =>
      rintro test ⟨⟩
      exact begins_mono (by simp_all [opensStatement]) (block _ rfl)
  | expressionStatement _ _ _ content =>
      rintro test ⟨⟩
      exact begins_append _
        (begins_mono (by simp_all [opensStatement]) (content _ rfl))
  | noExpressions | noProperties | noParameters | noStatements =>
      rintro test ⟨⟩
  | _ =>
      simp_all [Phrase.first?, opensPrimary, primaryKinds, opensExpression,
        begins_append, opensBrace, opensProperty, isName]

end ScriptAudit.Grammar
