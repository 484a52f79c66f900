/-
Readings: what it means to read a phrase off the front of a token list and leave
a given rest, without any budget.

A reading follows the rules of a derivation, and in addition it never stops
early: wherever a phrase could have gone on, the rest begins with a token that
it cannot go on with. So a token list has at most one reading of a category.
-/

import ScriptAudit.Proofs.Grammar.Derivation

namespace ScriptAudit.Grammar

def isAssignment (token : Token) : Bool :=
  token.kind == .assignment

def isComma (token : Token) : Bool :=
  token.kind == .comma

def isSemicolon (token : Token) : Bool :=
  token.kind == .semicolon

def isEquals (token : Token) : Bool :=
  token.isSpelled .assignment ["="]

def endsReturn (token : Token) : Bool :=
  token.kind == .semicolon || token.kind == .rightBrace

inductive Terminates : List Token → List Token → Prop where
  | semicolon {mark : Token} {rest : List Token}
      (kind : mark.kind = .semicolon) :
      Terminates (mark :: rest) rest
  | absent {rest : List Token} (stops : begins isSemicolon rest = false) :
      Terminates rest rest

/-- `Reads phrase tokens rest`: the phrase is read off `tokens` up to `rest`. -/
inductive Reads : Phrase → List Token → List Token → Prop where
  | identifier {name : Token} {rest : List Token}
      (kind : name.kind = .identifier) :
      Reads (.primary (.identifier (identifierOf name))) (name :: rest) rest
  | literal {token : Token} {content : Literal} {rest : List Token}
      (writes : literal? token = some content) :
      Reads (.primary (.literal content)) (token :: rest) rest
  | parenthesized {opening closing : Token} {tokens rest : List Token}
      {value : Expr}
      (opens : opening.kind = .leftParen)
      (nested : Reads (.expression value) tokens (closing :: rest))
      (closes : closing.kind = .rightParen) :
      Reads (.primary value) (opening :: tokens) rest
  | array {opening closing : Token} {tokens rest : List Token}
      {values : List Expr}
      (opens : opening.kind = .leftBracket)
      (elements : Reads (.expressions values) tokens (closing :: rest))
      (closes : closing.kind = .rightBracket) :
      Reads (.primary (.array values opening.position)) (opening :: tokens) rest
  | object {opening closing : Token} {tokens rest : List Token}
      {entries : List Property}
      (opens : opening.kind = .leftBrace)
      (properties : Reads (.properties entries) tokens (closing :: rest))
      (closes : closing.kind = .rightBrace) :
      Reads (.primary (.object entries opening.position)) (opening :: tokens)
        rest
  | bare {value : Expr} {tokens rest : List Token}
      (primary : Reads (.primary value) tokens rest) :
      Reads (.accessed value) tokens rest
  | member {target : Expr} {tokens rest : List Token} {dot name : Token}
      (object : Reads (.accessed target) tokens (dot :: name :: rest))
      (dotted : dot.kind = .dot) (kind : name.kind = .identifier) :
      Reads
        (.accessed (.member target (.identifier (identifierOf name)) false
          target.position))
        tokens rest
  | index {target value : Expr} {tokens middle rest : List Token}
      {opening closing : Token}
      (object : Reads (.accessed target) tokens (opening :: middle))
      (opens : opening.kind = .leftBracket)
      (selector : Reads (.expression value) middle (closing :: rest))
      (closes : closing.kind = .rightBracket) :
      Reads (.accessed (.member target value true target.position)) tokens rest
  | call {target : Expr} {values : List Expr}
      {tokens middle rest : List Token} {opening closing : Token}
      (callee : Reads (.accessed target) tokens (opening :: middle))
      (opens : opening.kind = .leftParen)
      (arguments : Reads (.expressions values) middle (closing :: rest))
      (closes : closing.kind = .rightParen) :
      Reads (.accessed (.call target values target.position)) tokens rest
  | settled {value : Expr} {tokens rest : List Token}
      (accessed : Reads (.accessed value) tokens rest)
      (noAccess : begins opensAccess rest = false)
      (noUpdate : begins isUpdate rest = false) :
      Reads (.updated value) tokens rest
  | update {value : Expr} {tokens rest : List Token} {operator : Token}
      (accessed : Reads (.accessed value) tokens (operator :: rest))
      (updates : isUpdate operator = true) :
      Reads (.updated (.unary operator.lexeme .after value value.position))
        tokens rest
  | operand {value : Expr} {tokens rest : List Token}
      (updated : Reads (.updated value) tokens rest) :
      Reads (.unary value) tokens rest
  | operator {value : Expr} {tokens rest : List Token} {operator : Token}
      (kind : operator.kind = .unary)
      (operand : Reads (.unary value) tokens rest) :
      Reads (.unary (.unary operator.lexeme .before value operator.position))
        (operator :: tokens) rest
  | first {rank : Rank} {tighter : List Rank} {value : Expr}
      {tokens rest : List Token}
      (operand : Reads (.binary tighter value) tokens rest) :
      Reads (.chain rank tighter value) tokens rest
  | join {rank : Rank} {tighter : List Rank} {left right : Expr}
      {tokens middle rest : List Token} {operator : Token}
      (chain : Reads (.chain rank tighter left) tokens (operator :: middle))
      (admitted : rank.admits operator = true)
      (operand : Reads (.binary tighter right) middle rest) :
      Reads
        (.chain rank tighter
          (.binary operator.lexeme left right left.position))
        tokens rest
  | innermost {value : Expr} {tokens rest : List Token}
      (unary : Reads (.unary value) tokens rest) :
      Reads (.binary [] value) tokens rest
  | rank {rank : Rank} {tighter : List Rank} {value : Expr}
      {tokens rest : List Token}
      (chain : Reads (.chain rank tighter value) tokens rest)
      (stops : begins rank.admits rest = false) :
      Reads (.binary (rank :: tighter) value) tokens rest
  | simple {value : Expr} {tokens rest : List Token}
      (ladder : Reads (.binary ranks value) tokens rest)
      (stops : begins isAssignment rest = false) :
      Reads (.expression value) tokens rest
  | assignment {target value : Expr} {tokens middle rest : List Token}
      {operator : Token}
      (ladder : Reads (.binary ranks target) tokens (operator :: middle))
      (kind : operator.kind = .assignment)
      (assigned : Reads (.expression value) middle rest) :
      Reads
        (.expression
          (.assignment operator.lexeme target value target.position))
        tokens rest
  | noExpressions {rest : List Token} : Reads (.expressions []) rest rest
  | oneExpression {value : Expr} {tokens rest : List Token}
      (only : Reads (.expression value) tokens rest)
      (stops : begins isComma rest = false) :
      Reads (.expressions [value]) tokens rest
  | moreExpressions {value next : Expr} {others : List Expr}
      {tokens middle rest : List Token} {comma : Token}
      (head : Reads (.expression value) tokens (comma :: middle))
      (kind : comma.kind = .comma)
      (tail : Reads (.expressions (next :: others)) middle rest) :
      Reads (.expressions (value :: next :: others)) tokens rest
  | namedProperty {name colon : Token} {value : Expr}
      {tokens rest : List Token}
      (kind : name.kind = .identifier) (colonKind : colon.kind = .colon)
      (content : Reads (.expression value) tokens rest) :
      Reads
        (.property
          (.entry (.identifier (identifierOf name)) value name.position))
        (name :: colon :: tokens) rest
  | quotedProperty {quote colon : Token} {key : Literal} {value : Expr}
      {tokens rest : List Token}
      (kind : quote.kind = .string) (writes : literal? quote = some key)
      (colonKind : colon.kind = .colon)
      (content : Reads (.expression value) tokens rest) :
      Reads (.property (.entry (.literal key) value quote.position))
        (quote :: colon :: tokens) rest
  | noProperties {rest : List Token} : Reads (.properties []) rest rest
  | oneProperty {entry : Property} {tokens rest : List Token}
      (only : Reads (.property entry) tokens rest)
      (stops : begins isComma rest = false) :
      Reads (.properties [entry]) tokens rest
  | moreProperties {entry next : Property} {others : List Property}
      {tokens middle rest : List Token} {comma : Token}
      (head : Reads (.property entry) tokens (comma :: middle))
      (kind : comma.kind = .comma)
      (tail : Reads (.properties (next :: others)) middle rest) :
      Reads (.properties (entry :: next :: others)) tokens rest
  | noParameters {rest : List Token} : Reads (.parameters []) rest rest
  | oneParameter {name : Token} {rest : List Token}
      (kind : name.kind = .identifier)
      (stops : begins isComma rest = false) :
      Reads (.parameters [name]) (name :: rest) rest
  | moreParameters {name next comma : Token} {others middle rest : List Token}
      (kind : name.kind = .identifier) (commaKind : comma.kind = .comma)
      (tail : Reads (.parameters (next :: others)) middle rest) :
      Reads (.parameters (name :: next :: others)) (name :: comma :: middle)
        rest
  | declared {name : Token} {rest : List Token}
      (kind : name.kind = .identifier)
      (stops : begins isEquals rest = false) :
      Reads (.declarator ⟨identifierOf name, none, name.position⟩)
        (name :: rest) rest
  | initialized {name equals : Token} {value : Expr} {tokens rest : List Token}
      (kind : name.kind = .identifier) (spelled : isEquals equals = true)
      (init : Reads (.expression value) tokens rest) :
      Reads (.declarator ⟨identifierOf name, some value, name.position⟩)
        (name :: equals :: tokens) rest
  | oneDeclarator {content : Declarator} {tokens rest : List Token}
      (only : Reads (.declarator content) tokens rest)
      (stops : begins isComma rest = false) :
      Reads (.declarators [content]) tokens rest
  | moreDeclarators {content next : Declarator} {others : List Declarator}
      {tokens middle rest : List Token} {comma : Token}
      (head : Reads (.declarator content) tokens (comma :: middle))
      (kind : comma.kind = .comma)
      (tail : Reads (.declarators (next :: others)) middle rest) :
      Reads (.declarators (content :: next :: others)) tokens rest
  | declaration {keyword : Token} {contents : List Declarator}
      {tokens middle rest : List Token}
      (spelled : keyword.isSpelled .keyword ["var", "let", "const"] = true)
      (list : Reads (.declarators contents) tokens middle)
      (ends : Terminates middle rest) :
      Reads
        (.statement
          (.declaration keyword.lexeme contents keyword.position))
        (keyword :: tokens) rest
  | function {keyword name opening closing : Token}
      {names tokens middle rest : List Token} {body : List Statement}
      {bodyPosition : Position}
      (spelled : keyword.isSpelled .keyword ["function"] = true)
      (kind : name.kind = .identifier)
      (opens : opening.kind = .leftParen)
      (parameters : Reads (.parameters names) tokens (closing :: middle))
      (closes : closing.kind = .rightParen)
      (block : Reads (.block body bodyPosition) middle rest) :
      Reads
        (.statement
          (.function (identifierOf name) (names.map identifierOf) body
            bodyPosition keyword.position))
        (keyword :: name :: opening :: tokens) rest
  | returnNothing {keyword : Token} {middle rest : List Token}
      (spelled : keyword.isSpelled .keyword ["return"] = true)
      (stops : middle = [] ∨ begins endsReturn middle = true)
      (ends : Terminates middle rest) :
      Reads (.statement (.returning none keyword.position))
        (keyword :: middle) rest
  | returnValue {keyword : Token} {value : Expr}
      {tokens middle rest : List Token}
      (spelled : keyword.isSpelled .keyword ["return"] = true)
      (argument : Reads (.expression value) tokens middle)
      (ends : Terminates middle rest) :
      Reads (.statement (.returning (some value) keyword.position))
        (keyword :: tokens) rest
  | ifThen {keyword opening closing : Token} {test : Expr}
      {consequent : Statement} {tokens middle rest : List Token}
      (spelled : keyword.isSpelled .keyword ["if"] = true)
      (opens : opening.kind = .leftParen)
      (condition : Reads (.expression test) tokens (closing :: middle))
      (closes : closing.kind = .rightParen)
      (branch : Reads (.statement consequent) middle rest)
      (stops : begins isElse rest = false) :
      Reads (.statement (.ifThen test consequent keyword.position))
        (keyword :: opening :: tokens) rest
  | ifElse {keyword opening closing otherwise : Token} {test : Expr}
      {consequent alternate : Statement}
      {tokens middle others rest : List Token}
      (spelled : keyword.isSpelled .keyword ["if"] = true)
      (opens : opening.kind = .leftParen)
      (condition : Reads (.expression test) tokens (closing :: middle))
      (closes : closing.kind = .rightParen)
      (branch : Reads (.statement consequent) middle (otherwise :: others))
      (elseSpelled : isElse otherwise = true)
      (other : Reads (.statement alternate) others rest) :
      Reads (.statement (.ifElse test consequent alternate keyword.position))
        (keyword :: opening :: tokens) rest
  | loop {keyword opening closing : Token} {body : Statement}
      {header middle rest : List Token}
      (spelled : keyword.isSpelled .keyword ["while", "for"] = true)
      (opens : opening.kind = .leftParen)
      (balanced : Balanced header)
      (closes : closing.kind = .rightParen)
      (repeated : Reads (.statement body) middle rest) :
      Reads (.statement (.loop (loopKind keyword) body keyword.position))
        (keyword :: opening :: (header ++ closing :: middle)) rest
  | blockStatement {body : List Statement} {position : Position}
      {tokens rest : List Token}
      (block : Reads (.block body position) tokens rest) :
      Reads (.statement (.block body position)) tokens rest
  | expressionStatement {value : Expr} {tokens middle rest : List Token}
      (notBlock : begins opensBrace tokens = false)
      (content : Reads (.expression value) tokens middle)
      (ends : Terminates middle rest) :
      Reads (.statement (.expression value value.position)) tokens rest
  | block {opening closing : Token} {body : List Statement}
      {tokens rest : List Token}
      (opens : opening.kind = .leftBrace)
      (list : Reads (.statements body) tokens (closing :: rest))
      (closes : closing.kind = .rightBrace) :
      Reads (.block body opening.position) (opening :: tokens) rest
  | noStatements {rest : List Token} : Reads (.statements []) rest rest
  | moreStatements {content : Statement} {others : List Statement}
      {tokens middle rest : List Token}
      (head : Reads (.statement content) tokens middle)
      (tail : Reads (.statements others) middle rest) :
      Reads (.statements (content :: others)) tokens rest

/-! ### A reading is a derivation of what it takes off -/

theorem Terminates.terminator {middle rest : List Token}
    (ends : Terminates middle rest) :
    ∃ terminator, middle = terminator ++ rest ∧ Terminator terminator := by
  cases ends with
  | semicolon kind => exact ⟨[_], rfl, .semicolon kind⟩
  | absent => exact ⟨[], rfl, .absent⟩

theorem Reads.derives {phrase : Phrase} {tokens rest : List Token}
    (reading : Reads phrase tokens rest) :
    ∃ front, tokens = front ++ rest ∧ Derives phrase front := by
  induction reading with
  | identifier kind => exact ⟨[_], rfl, .identifier kind⟩
  | literal writes => exact ⟨[_], rfl, .literal writes⟩
  | parenthesized opens _ closes nested =>
      obtain ⟨inner, rfl, nested⟩ := nested
      exact ⟨_, by simp, .parenthesized opens nested closes⟩
  | array opens _ closes elements =>
      obtain ⟨inner, rfl, elements⟩ := elements
      exact ⟨_, by simp, .array opens elements closes⟩
  | object opens _ closes properties =>
      obtain ⟨inner, rfl, properties⟩ := properties
      exact ⟨_, by simp, .object opens properties closes⟩
  | bare _ primary =>
      obtain ⟨front, rfl, primary⟩ := primary
      exact ⟨front, rfl, .bare primary⟩
  | member _ dotted kind object =>
      obtain ⟨front, rfl, object⟩ := object
      exact ⟨_, by simp, .member object dotted kind⟩
  | index _ opens _ closes object selector =>
      obtain ⟨front, rfl, object⟩ := object
      obtain ⟨inner, rfl, selector⟩ := selector
      exact ⟨_, by simp, .index object opens selector closes⟩
  | call _ opens _ closes callee arguments =>
      obtain ⟨front, rfl, callee⟩ := callee
      obtain ⟨inner, rfl, arguments⟩ := arguments
      exact ⟨_, by simp, .call callee opens arguments closes⟩
  | settled _ _ _ accessed =>
      obtain ⟨front, rfl, accessed⟩ := accessed
      exact ⟨front, rfl, .settled accessed⟩
  | update _ updates accessed =>
      obtain ⟨front, rfl, accessed⟩ := accessed
      exact ⟨_, by simp, .update accessed updates⟩
  | operand _ updated =>
      obtain ⟨front, rfl, updated⟩ := updated
      exact ⟨front, rfl, .operand updated⟩
  | operator kind _ operand =>
      obtain ⟨front, rfl, operand⟩ := operand
      exact ⟨_, by simp, .operator kind operand⟩
  | first _ operand =>
      obtain ⟨front, rfl, operand⟩ := operand
      exact ⟨front, rfl, .first operand⟩
  | join _ admitted _ chain operand =>
      obtain ⟨front, rfl, chain⟩ := chain
      obtain ⟨back, rfl, operand⟩ := operand
      exact ⟨_, by simp, .join chain admitted operand⟩
  | innermost _ unary =>
      obtain ⟨front, rfl, unary⟩ := unary
      exact ⟨front, rfl, .innermost unary⟩
  | rank _ _ chain =>
      obtain ⟨front, rfl, chain⟩ := chain
      exact ⟨front, rfl, .rank chain⟩
  | simple _ _ ladder =>
      obtain ⟨front, rfl, ladder⟩ := ladder
      exact ⟨front, rfl, .simple ladder⟩
  | assignment _ kind _ ladder assigned =>
      obtain ⟨front, rfl, ladder⟩ := ladder
      obtain ⟨back, rfl, assigned⟩ := assigned
      exact ⟨_, by simp, .assignment ladder kind assigned⟩
  | noExpressions => exact ⟨[], rfl, .noExpressions⟩
  | oneExpression _ _ only =>
      obtain ⟨front, rfl, only⟩ := only
      exact ⟨front, rfl, .oneExpression only⟩
  | moreExpressions _ kind _ head tail =>
      obtain ⟨front, rfl, head⟩ := head
      obtain ⟨back, rfl, tail⟩ := tail
      exact ⟨_, by simp, .moreExpressions head kind tail⟩
  | namedProperty kind colonKind _ content =>
      obtain ⟨front, rfl, content⟩ := content
      exact ⟨_, by simp, .namedProperty kind colonKind content⟩
  | quotedProperty kind writes colonKind _ content =>
      obtain ⟨front, rfl, content⟩ := content
      exact ⟨_, by simp, .quotedProperty kind writes colonKind content⟩
  | noProperties => exact ⟨[], rfl, .noProperties⟩
  | oneProperty _ _ only =>
      obtain ⟨front, rfl, only⟩ := only
      exact ⟨front, rfl, .oneProperty only⟩
  | moreProperties _ kind _ head tail =>
      obtain ⟨front, rfl, head⟩ := head
      obtain ⟨back, rfl, tail⟩ := tail
      exact ⟨_, by simp, .moreProperties head kind tail⟩
  | noParameters => exact ⟨[], rfl, .noParameters⟩
  | oneParameter kind => exact ⟨[_], rfl, .oneParameter kind⟩
  | moreParameters kind commaKind _ tail =>
      obtain ⟨back, rfl, tail⟩ := tail
      exact ⟨_, by simp, .moreParameters kind commaKind tail⟩
  | declared kind => exact ⟨[_], rfl, .declared kind⟩
  | initialized kind spelled _ init =>
      obtain ⟨front, rfl, init⟩ := init
      exact ⟨_, by simp, .initialized kind spelled init⟩
  | oneDeclarator _ _ only =>
      obtain ⟨front, rfl, only⟩ := only
      exact ⟨front, rfl, .oneDeclarator only⟩
  | moreDeclarators _ kind _ head tail =>
      obtain ⟨front, rfl, head⟩ := head
      obtain ⟨back, rfl, tail⟩ := tail
      exact ⟨_, by simp, .moreDeclarators head kind tail⟩
  | declaration spelled _ ends list =>
      obtain ⟨terminator, rfl, semicolon⟩ := ends.terminator
      obtain ⟨front, rfl, list⟩ := list
      exact ⟨_, by simp, .declaration spelled list semicolon⟩
  | function spelled kind opens _ closes _ parameters block =>
      obtain ⟨inner, rfl, parameters⟩ := parameters
      obtain ⟨back, rfl, block⟩ := block
      exact ⟨_, by simp, .function spelled kind opens parameters closes block⟩
  | returnNothing spelled _ ends =>
      obtain ⟨terminator, rfl, semicolon⟩ := ends.terminator
      exact ⟨_, by simp, .returnNothing spelled semicolon⟩
  | returnValue spelled _ ends argument =>
      obtain ⟨terminator, rfl, semicolon⟩ := ends.terminator
      obtain ⟨front, rfl, argument⟩ := argument
      exact ⟨_, by simp, .returnValue spelled argument semicolon⟩
  | ifThen spelled opens _ closes _ _ condition branch =>
      obtain ⟨inner, rfl, condition⟩ := condition
      obtain ⟨front, rfl, branch⟩ := branch
      exact ⟨_, by simp, .ifThen spelled opens condition closes branch⟩
  | ifElse spelled opens _ closes _ elseSpelled _ condition branch other =>
      obtain ⟨inner, rfl, condition⟩ := condition
      obtain ⟨front, rfl, branch⟩ := branch
      obtain ⟨back, rfl, other⟩ := other
      exact ⟨_, by simp,
        .ifElse spelled opens condition closes branch elseSpelled other⟩
  | loop spelled opens balanced closes _ repeated =>
      obtain ⟨front, rfl, repeated⟩ := repeated
      exact ⟨_, by simp, .loop spelled opens balanced closes repeated⟩
  | blockStatement _ block =>
      obtain ⟨front, rfl, block⟩ := block
      exact ⟨front, rfl, .blockStatement block⟩
  | expressionStatement notBlock _ ends content =>
      obtain ⟨terminator, rfl, semicolon⟩ := ends.terminator
      obtain ⟨front, rfl, content⟩ := content
      exact ⟨_, by simp,
        .expressionStatement (begins_of_append notBlock) content semicolon⟩
  | block opens _ closes list =>
      obtain ⟨inner, rfl, list⟩ := list
      exact ⟨_, by simp, .block opens list closes⟩
  | noStatements => exact ⟨[], rfl, .noStatements⟩
  | moreStatements _ _ head tail =>
      obtain ⟨front, rfl, head⟩ := head
      obtain ⟨back, rfl, tail⟩ := tail
      exact ⟨_, by simp, .moreStatements head tail⟩

theorem Reads.begins_first {phrase : Phrase} {tokens rest : List Token}
    {test : Token → Bool} (reading : Reads phrase tokens rest)
    (first : phrase.first? = some test) : begins test tokens = true := by
  obtain ⟨front, rfl, derivation⟩ := reading.derives
  exact begins_append rest (derivation.begins_first test first)

theorem Reads.length_le {phrase : Phrase} {tokens rest : List Token}
    (reading : Reads phrase tokens rest) : rest.length ≤ tokens.length := by
  obtain ⟨front, rfl, _⟩ := reading.derives
  rw [List.length_append]
  omega

theorem Reads.length_lt {phrase : Phrase} {tokens rest : List Token}
    {test : Token → Bool} (reading : Reads phrase tokens rest)
    (first : phrase.first? = some test) : rest.length < tokens.length := by
  obtain ⟨front, rfl, derivation⟩ := reading.derives
  have nonempty := ne_nil_of_begins (derivation.begins_first test first)
  have positive := List.length_pos_iff.mpr nonempty
  rw [List.length_append]
  omega

end ScriptAudit.Grammar
