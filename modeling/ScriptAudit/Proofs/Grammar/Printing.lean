/-
Printing: the tokens that write a program, without places.

Each place for an expression asks for a level of the grammar, from 0 for a whole
expression to 11 for a primary one. An expression is put in parentheses where
its own level is too loose for its place, and where an expression statement
would otherwise begin with a brace. A style may ask for more parentheses.
-/

import ScriptAudit.Proofs.Tree.WellFormed

namespace ScriptAudit

/-- Which expressions get parentheses whether they need them or not. It may
depend on the level of the place and on whether the place leads a statement. -/
def Style : Type :=
  (place : Nat) → (leading : Bool) → Expr → Bool

namespace Style

def minimal : Style :=
  fun _ _ _ => false

def full : Style :=
  fun _ _ _ => true

end Style

namespace Grammar

def operatorRank (operator : Bytes) : Nat :=
  ranks.findIdx fun rank => rank.spellings.contains operator

def operatorKind (operator : Bytes) : Token.Kind :=
  (ranks[operatorRank operator]?.map Rank.kind).getD .unknown

/-- The level at which the grammar reads an expression without parentheses. -/
def level : Expr → Nat
  | .assignment .. => 0
  | .binary operator .. => operatorRank operator + 2
  | .unary _ .before .. => 8
  | .unary _ .after .. => 9
  | .call .. => 10
  | .member .. => 10
  | _ => 11

def isObject : Expr → Bool
  | .object .. => true
  | _ => false

/-- Whether an expression gets parentheses at a place of the given level.
`leading` says that the place is the start of an expression statement. -/
def wraps (style : Style) (place : Nat) (leading : Bool) (value : Expr) :
    Bool :=
  style place leading value || level value < place
    || (leading && isObject value)

/-- A token that has no place yet. -/
def mark (kind : Token.Kind) (lexeme : Bytes) : Token :=
  { kind := kind
    lexeme := lexeme
    position := .start }

@[simp] theorem mark_kind (kind : Token.Kind) (lexeme : Bytes) :
    (mark kind lexeme).kind = kind :=
  rfl

def commas : List (List Token) → List Token
  | [] => []
  | [only] => only
  | first :: next :: others =>
      first ++ mark .comma "," :: commas (next :: others)

def between (opening closing : Token) (inner : List Token) : List Token :=
  opening :: (inner ++ [closing])

theorem between_append (opening closing : Token) (inner rest : List Token) :
    between opening closing inner ++ rest =
      opening :: (inner ++ closing :: rest) := by
  rw [between, List.cons_append, List.append_assoc]
  rfl

def parentheses : List Token → List Token :=
  between (mark .leftParen "(") (mark .rightParen ")")

def brackets : List Token → List Token :=
  between (mark .leftBracket "[") (mark .rightBracket "]")

def braces : List Token → List Token :=
  between (mark .leftBrace "\x7b") (mark .rightBrace "\x7d")

/-! ### Expressions -/

/-- An expression at its place, given its tokens without parentheses for a
place that leads a statement and for one that does not. -/
def placed (style : Style) (place : Nat) (leading : Bool) (value : Expr)
    (bare : Bool → List Token) : List Token :=
  if wraps style place leading value then parentheses (bare false)
  else bare leading

mutual

def bareTokens (style : Style) (leading : Bool) : Expr → List Token
  | .identifier identifier => [mark .identifier identifier.name]
  | .literal literal => [mark literal.value.kind literal.raw]
  | .binary operator left right _ =>
      placed style (operatorRank operator + 2) leading left
          (fun leads => bareTokens style leads left)
        ++ mark (operatorKind operator) operator
        :: placed style (operatorRank operator + 3) false right
          (fun leads => bareTokens style leads right)
  | .unary operator .before operand _ =>
      mark .unary operator
        :: placed style 8 false operand
          (fun leads => bareTokens style leads operand)
  | .unary operator .after operand _ =>
      placed style 10 leading operand
          (fun leads => bareTokens style leads operand)
        ++ [mark .unary operator]
  | .assignment operator target value _ =>
      placed style 1 leading target (fun leads => bareTokens style leads target)
        ++ mark .assignment operator
        :: placed style 0 false value (fun leads => bareTokens style leads value)
  | .call callee arguments _ =>
      placed style 10 leading callee (fun leads => bareTokens style leads callee)
        ++ parentheses (commas (listTokens style arguments))
  | .member object property false _ =>
      placed style 10 leading object (fun leads => bareTokens style leads object)
        ++ mark .dot "." :: bareTokens style false property
  | .member object property true _ =>
      placed style 10 leading object (fun leads => bareTokens style leads object)
        ++ brackets (placed style 0 false property
          (fun leads => bareTokens style leads property))
  | .array elements _ => brackets (commas (listTokens style elements))
  | .object properties _ => braces (commas (entriesTokens style properties))

def listTokens (style : Style) : List Expr → List (List Token)
  | [] => []
  | value :: others =>
      placed style 0 false value (fun leads => bareTokens style leads value)
        :: listTokens style others

def entryTokens (style : Style) : Property → List Token
  | .entry key value _ =>
      bareTokens style false key
        ++ mark .colon ":"
        :: placed style 0 false value (fun leads => bareTokens style leads value)

def entriesTokens (style : Style) : List Property → List (List Token)
  | [] => []
  | entry :: others => entryTokens style entry :: entriesTokens style others

end

def tokensAt (style : Style) (place : Nat) (leading : Bool) (value : Expr) :
    List Token :=
  placed style place leading value fun leads => bareTokens style leads value

theorem listTokens_eq_map (style : Style) (values : List Expr) :
    listTokens style values = values.map (tokensAt style 0 false) := by
  induction values with
  | nil => rfl
  | cons value others inductionHypothesis =>
      rw [listTokens, inductionHypothesis, List.map_cons, tokensAt]

theorem entriesTokens_eq_map (style : Style) (entries : List Property) :
    entriesTokens style entries = entries.map (entryTokens style) := by
  induction entries with
  | nil => rfl
  | cons entry others inductionHypothesis =>
      rw [entriesTokens, inductionHypothesis, List.map_cons]

def declaratorTokens (style : Style) (content : Declarator) : List Token :=
  mark .identifier content.identifier.name
    :: match content.init with
      | none => []
      | some value => mark .assignment "=" :: tokensAt style 0 false value

def loopKeyword : LoopKind → Token
  | .whileLoop => mark .keyword "while"
  | .forLoop => mark .keyword "for"

mutual

def statementTokens (style : Style) : Statement → List Token
  | .declaration keyword declarators _ =>
      mark .keyword keyword
        :: (commas (declarators.map (declaratorTokens style))
          ++ [mark .semicolon ";"])
  | .function identifier parameters body _ _ =>
      mark .keyword "function" :: mark .identifier identifier.name
        :: (parentheses (commas (parameters.map
            fun parameter => [mark .identifier parameter.name]))
          ++ braces (statementsTokens style body))
  | .block body _ => braces (statementsTokens style body)
  | .expression value _ =>
      tokensAt style 0 true value ++ [mark .semicolon ";"]
  | .returning none _ => [mark .keyword "return", mark .semicolon ";"]
  | .returning (some value) _ =>
      mark .keyword "return"
        :: (tokensAt style 0 false value ++ [mark .semicolon ";"])
  | .ifThen test consequent _ =>
      mark .keyword "if"
        :: (parentheses (tokensAt style 0 false test)
          ++ statementTokens style consequent)
  | .ifElse test consequent alternate _ =>
      mark .keyword "if"
        :: (parentheses (tokensAt style 0 false test)
          ++ statementTokens style consequent
          ++ mark .keyword "else" :: statementTokens style alternate)
  | .loop kind body _ =>
      loopKeyword kind :: (parentheses [] ++ statementTokens style body)

def statementsTokens (style : Style) : List Statement → List Token
  | [] => []
  | content :: others =>
      statementTokens style content ++ statementsTokens style others

end

def programTokens (style : Style) (program : Program) : List Token :=
  statementsTokens style program.body

end Grammar

end ScriptAudit
