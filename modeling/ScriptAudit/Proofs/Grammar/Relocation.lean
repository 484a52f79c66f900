/-
Reading commutes with relocation: a production looks at kinds and lexemes only,
so moving the places of the tokens moves the places of what is read off them and
changes nothing else, whether the production accepts or rejects.
-/

import ScriptAudit.Proofs.Tree.Relocation

namespace ScriptAudit

namespace Grammar

def Reply.relocate {α : Type} (move : Position → Position) (convert : α → α) :
    Reply α → Reply α
  | accept value rest =>
      .accept (convert value) (rest.map (Token.relocate move))
  | reject problem rest => .reject problem (rest.map (Token.relocate move))

namespace Production

/-- On moved tokens the second production does what the first does on the
tokens as they were, up to a conversion of the value. -/
def Relocates {α : Type} (move : Position → Position) (convert : α → α)
    (production relocated : Production α) : Prop :=
  ∀ tokens, relocated (tokens.map (Token.relocate move)) =
    (production tokens).relocate move convert

variable {move : Position → Position}

theorem relocates_pure {α : Type} {convert : α → α} {value converted : α}
    (same : converted = convert value) :
    Relocates move convert (pure value) (pure converted) := by
  intro tokens
  rw [same]
  rfl

theorem relocates_exhausted {α : Type} {convert : α → α} :
    Relocates move convert exhausted exhausted :=
  fun _ => rfl

theorem Relocates.bind {α β : Type} {convert : α → α} {convertNext : β → β}
    {production relocated : Production α} {next relocatedNext : α → Production β}
    (first : Relocates move convert production relocated)
    (continued : ∀ value,
      Relocates move convertNext (next value) (relocatedNext (convert value))) :
    Relocates move convertNext (production >>= next)
      (relocated >>= relocatedNext) := by
  intro tokens
  rw [bind_apply, bind_apply, first tokens]
  cases production tokens with
  | reject problem rest => rfl
  | accept value rest => exact continued value rest

theorem Relocates.map {α β : Type} {convert : α → α} {convertResult : β → β}
    {production relocated : Production α}
    (first : Relocates move convert production relocated) {wrap : α → β}
    (commutes : ∀ value, wrap (convert value) = convertResult (wrap value)) :
    Relocates move convertResult (wrap <$> production) (wrap <$> relocated) :=
  first.bind fun value => relocates_pure (commutes value)

theorem relocates_advance : Relocates move id advance advance := by
  intro tokens
  cases tokens <;> rfl

theorem Relocates.advancing {α : Type} {convert : α → α}
    {production relocated : Production α}
    (inner : Relocates move convert production relocated) :
    Relocates move convert (.advancing production) (.advancing relocated) :=
  inner

theorem relocates_taking {α : Type} {convert : α → α} {value converted : α}
    (same : converted = convert value) :
    Relocates move convert (taking value) (taking converted) :=
  relocates_advance.bind fun _ => relocates_pure same

theorem relocates_onNext {α : Type} {convert : α → α}
    {ended relocatedEnded : Production α} {found relocatedFound : Token → Production α}
    (endedRelocates : Relocates move convert ended relocatedEnded)
    (foundRelocates : ∀ token, Relocates move convert (found token)
      (relocatedFound (token.relocate move))) :
    Relocates move convert (onNext ended found)
      (onNext relocatedEnded relocatedFound) := by
  intro tokens
  cases tokens with
  | nil => exact endedRelocates []
  | cons token rest => exact foundRelocates token (token :: rest)

theorem relocates_readIf {test : Token → Bool}
    (blind : ∀ token, test (token.relocate move) = test token) :
    Relocates move (Option.map (Token.relocate move)) (readIf test)
      (readIf test) := by
  refine relocates_onNext (relocates_pure rfl) fun token => ?_
  rw [blind]
  split
  · exact relocates_taking rfl
  · exact relocates_pure rfl

theorem relocates_sees (kind : Token.Kind) :
    Relocates move id (sees kind) (sees kind) := by
  intro tokens
  cases tokens <;> rfl

theorem relocates_seesEnd : Relocates move id seesEnd seesEnd := by
  intro tokens
  cases tokens <;> rfl

theorem relocates_skips (kind : Token.Kind) :
    Relocates move id (skips kind) (skips kind) := by
  refine (relocates_readIf fun _ => rfl).bind fun found => ?_
  exact relocates_pure Option.isSome_map

theorem relocates_expect (kind : Token.Kind) :
    Relocates move (Token.relocate move) (expect kind) (expect kind) := by
  refine relocates_onNext (fun _ => rfl) fun token => ?_
  rw [Token.relocate_kind]
  split
  · exact relocates_taking rfl
  · exact fun _ => rfl

theorem relocates_extend {α : Type} {convert : α → α}
    {continues : Token → Bool} {step relocatedStep : α → Token → Production α}
    (blind : ∀ token, continues (token.relocate move) = continues token)
    (stepRelocates : ∀ value token,
      Relocates move convert (step value token)
        (relocatedStep (convert value) (token.relocate move)))
    (budget : Nat) (value : α) :
    Relocates move convert (extend continues step budget value)
      (extend continues relocatedStep budget (convert value)) := by
  induction budget generalizing value with
  | zero => exact relocates_exhausted
  | succ budget inductionHypothesis =>
      refine (relocates_readIf blind).bind fun found => ?_
      cases found with
      | none => exact relocates_pure rfl
      | some token => exact (stepRelocates value token).bind inductionHypothesis

section Lists

variable {α : Type} {convert : α → α} {item relocated : Production α}

theorem relocates_separated
    (itemRelocates : Relocates move convert item relocated) (budget : Nat) :
    Relocates move (List.map convert) (separated item budget)
      (separated relocated budget) := by
  induction budget with
  | zero => exact relocates_exhausted
  | succ budget inductionHypothesis =>
      refine itemRelocates.bind fun first => ?_
      refine (relocates_skips .comma).bind fun skipped => ?_
      cases skipped with
      | false => exact relocates_pure rfl
      | true => exact inductionHypothesis.bind fun _ => relocates_pure rfl

theorem relocates_enclosed
    (itemRelocates : Relocates move convert item relocated) (budget : Nat)
    (close : Token.Kind) :
    Relocates move (List.map convert) (enclosed budget close item)
      (enclosed budget close relocated) := by
  have closed (items : List α) :
      Relocates move (List.map convert) (expect close >>= fun _ => pure items)
        (expect close >>= fun _ => pure (items.map convert)) :=
    (relocates_expect close).bind fun _ => relocates_pure rfl
  have empty : Relocates move (List.map convert) (pure []) (pure []) :=
    relocates_pure rfl
  refine (relocates_sees close).bind fun seen => ?_
  cases seen with
  | true => exact empty.bind closed
  | false => exact (relocates_separated itemRelocates budget).bind closed

theorem relocates_itemsUntil
    (itemRelocates : Relocates move convert item relocated)
    (close : Token.Kind) (budget : Nat) :
    Relocates move (List.map convert) (itemsUntil close item budget)
      (itemsUntil close relocated budget) := by
  induction budget with
  | zero => exact relocates_exhausted
  | succ budget inductionHypothesis =>
      refine (relocates_sees close).bind fun seen => ?_
      refine relocates_seesEnd.bind fun ended => ?_
      rw [id, id]
      split
      · exact relocates_pure rfl
      · exact itemRelocates.bind fun _ =>
          inductionHypothesis.bind fun _ => relocates_pure rfl

end Lists

end Production

open Production

variable {move : Position → Position}

/-! ### Expressions -/

section Expressions

variable {nested relocated : Production Expr}

theorem relocates_propertyKey :
    Relocates move (Expr.relocate move) propertyKey propertyKey := by
  refine relocates_onNext (fun _ => rfl) fun token => ?_
  rw [literal?_relocate, Token.relocate_kind]
  cases token.kind with
  | identifier => exact relocates_taking rfl
  | string =>
      cases literal? token with
      | none => exact fun _ => rfl
      | some literal => exact relocates_taking rfl
  | _ => exact fun _ => rfl

theorem relocates_property
    (nestedRelocates : Relocates move (Expr.relocate move) nested relocated) :
    Relocates move (Property.relocate move) (property nested)
      (property relocated) := by
  refine relocates_propertyKey.bind fun key => ?_
  refine (relocates_expect .colon).bind fun _ => ?_
  refine nestedRelocates.bind fun value => relocates_pure ?_
  rw [Property.relocate, Expr.position_relocate]

theorem relocates_primary
    (nestedRelocates : Relocates move (Expr.relocate move) nested relocated)
    (budget : Nat) :
    Relocates move (Expr.relocate move) (primary budget nested)
      (primary budget relocated) := by
  have group : Relocates move (Expr.relocate move) (parenthesized nested)
      (parenthesized relocated) :=
    relocates_advance.bind fun _ => nestedRelocates.bind fun _ =>
      (relocates_expect .rightParen).bind fun _ => relocates_pure rfl
  have list (opening : Token) :
      Relocates move (Expr.relocate move) (array budget nested opening)
        (array budget relocated (opening.relocate move)) := by
    refine (relocates_advance.bind fun _ => ?_).advancing
    refine (relocates_enclosed nestedRelocates budget _).bind fun elements => ?_
    apply relocates_pure
    rw [Expr.relocate, Expr.relocateAll_eq_map, Token.relocate_position]
  have record (opening : Token) :
      Relocates move (Expr.relocate move) (object budget nested opening)
        (object budget relocated (opening.relocate move)) := by
    refine (relocates_advance.bind fun _ => ?_).advancing
    refine (relocates_enclosed (relocates_property nestedRelocates) budget
      _).bind fun entries => ?_
    apply relocates_pure
    rw [Expr.relocate, Property.relocateAll_eq_map, Token.relocate_position]
  refine (relocates_onNext (fun _ => rfl) fun token => ?_).advancing
  unfold primaryAt
  rw [literal?_relocate, Token.relocate_kind]
  cases token.kind with
  | identifier => exact relocates_taking rfl
  | leftParen => exact group
  | leftBracket => exact list token
  | leftBrace => exact record token
  | _ =>
      cases literal? token with
      | none => exact fun _ => rfl
      | some literal => exact relocates_taking rfl

theorem relocates_access
    (nestedRelocates : Relocates move (Expr.relocate move) nested relocated)
    (budget : Nat) (target : Expr) (opening : Token) :
    Relocates move (Expr.relocate move) (access budget nested target opening)
      (access budget relocated (target.relocate move)
        (opening.relocate move)) := by
  unfold access
  rw [Token.relocate_kind]
  split
  · refine (relocates_expect .identifier).bind fun name => relocates_pure ?_
    rw [Expr.relocate, Expr.position_relocate]
    rfl
  · refine nestedRelocates.bind fun index => ?_
    refine (relocates_expect .rightBracket).bind fun _ => relocates_pure ?_
    rw [Expr.relocate, Expr.position_relocate]
  · refine (relocates_enclosed nestedRelocates budget _).bind fun arguments => ?_
    apply relocates_pure
    rw [Expr.relocate, Expr.relocateAll_eq_map, Expr.position_relocate]

theorem relocates_updated
    (nestedRelocates : Relocates move (Expr.relocate move) nested relocated)
    (budget : Nat) :
    Relocates move (Expr.relocate move) (updated budget nested)
      (updated budget relocated) := by
  refine Relocates.advancing ?_
  refine (relocates_primary nestedRelocates budget).bind fun first => ?_
  refine (relocates_extend (fun _ => rfl)
    (relocates_access nestedRelocates budget) budget first).bind
    fun operand => ?_
  refine (relocates_readIf fun _ => rfl).bind fun found => ?_
  cases found with
  | none => exact relocates_pure rfl
  | some token =>
      apply relocates_pure
      rw [Expr.relocate, Expr.position_relocate, Token.relocate_lexeme]

theorem relocates_unary {operand relocatedOperand : Production Expr}
    (operandRelocates :
      Relocates move (Expr.relocate move) operand relocatedOperand)
    (budget : Nat) :
    Relocates move (Expr.relocate move) (unary operand budget)
      (unary relocatedOperand budget) := by
  induction budget with
  | zero => exact relocates_exhausted
  | succ budget inductionHypothesis =>
      refine (relocates_onNext operandRelocates fun token => ?_).advancing
      rw [Token.relocate_kind]
      split
      · exact relocates_advance.bind fun _ =>
          inductionHypothesis.bind fun _ => relocates_pure rfl
      · exact operandRelocates

theorem relocates_binary {operand relocatedOperand : Production Expr}
    (operandRelocates :
      Relocates move (Expr.relocate move) operand relocatedOperand)
    (budget : Nat) (ladder : List Rank) :
    Relocates move (Expr.relocate move) (binary budget operand ladder)
      (binary budget relocatedOperand ladder) := by
  induction ladder with
  | nil => exact operandRelocates
  | cons rank tighter inductionHypothesis =>
      refine (inductionHypothesis.bind fun first => ?_).advancing
      refine relocates_extend (fun _ => rfl) (fun left operator => ?_) budget
        first
      refine inductionHypothesis.bind fun right => relocates_pure ?_
      rw [Expr.relocate, Expr.position_relocate, Token.relocate_lexeme]

theorem relocates_expression (budget : Nat) :
    Relocates move (Expr.relocate move) (expression budget)
      (expression budget) := by
  induction budget with
  | zero => exact relocates_exhausted
  | succ budget inductionHypothesis =>
      have operand :=
        relocates_unary (relocates_updated inductionHypothesis budget) (budget + 1)
      refine (relocates_binary operand budget ranks).bind fun target => ?_
      refine (relocates_readIf fun _ => rfl).bind fun found => ?_
      cases found with
      | none => exact relocates_pure rfl
      | some operator =>
          refine inductionHypothesis.bind fun value => relocates_pure ?_
          rw [Expr.relocate, Expr.position_relocate, Token.relocate_lexeme]

end Expressions

/-! ### Statements -/

section Statements

variable {nested relocated : Production Statement}

theorem relocates_declarator (budget : Nat) :
    Relocates move (Declarator.relocate move) (declarator budget)
      (declarator budget) := by
  have absent : Relocates move (Option.map (Expr.relocate move)) (pure none)
      (pure none) :=
    relocates_pure rfl
  have present : Relocates move (Option.map (Expr.relocate move))
      (some <$> expression budget) (some <$> expression budget) :=
    (relocates_expression budget).map fun _ => rfl
  refine ((relocates_expect .identifier).bind fun name => ?_).advancing
  refine (relocates_readIf fun _ => rfl).bind fun found => ?_
  cases found with
  | none => exact absent.bind fun _ => relocates_pure rfl
  | some equals => exact present.bind fun _ => relocates_pure rfl

theorem relocates_declaration (budget : Nat) (keyword : Token) :
    Relocates move (Statement.relocate move) (declaration budget keyword)
      (declaration budget (keyword.relocate move)) := by
  refine (relocates_advance.bind fun _ => ?_).advancing
  exact (relocates_separated (relocates_declarator budget) budget).bind fun _ =>
    (relocates_skips .semicolon).bind fun _ => relocates_pure rfl

theorem relocates_returnArgument (budget : Nat) :
    Relocates move (Option.map (Expr.relocate move)) (returnArgument budget)
      (returnArgument budget) := by
  refine (relocates_sees .semicolon).bind fun _ => ?_
  refine (relocates_sees .rightBrace).bind fun _ => ?_
  refine relocates_seesEnd.bind fun _ => ?_
  rw [id, id, id]
  split
  · exact relocates_pure rfl
  · exact (relocates_expression budget).map fun _ => rfl

theorem relocates_returning (budget : Nat) (keyword : Token) :
    Relocates move (Statement.relocate move) (returning budget keyword)
      (returning budget (keyword.relocate move)) := by
  refine (relocates_advance.bind fun _ => ?_).advancing
  exact (relocates_returnArgument budget).bind fun _ =>
    (relocates_skips .semicolon).bind fun _ => relocates_pure rfl

theorem relocates_expressionStatement (budget : Nat) :
    Relocates move (Statement.relocate move) (expressionStatement budget)
      (expressionStatement budget) := by
  refine ((relocates_expression budget).bind fun value => ?_).advancing
  refine (relocates_skips .semicolon).bind fun _ => relocates_pure ?_
  rw [Statement.relocate, Expr.position_relocate]

theorem relocates_block
    (nestedRelocates : Relocates move (Statement.relocate move) nested relocated)
    (budget : Nat) :
    Relocates move (Prod.map (Statement.relocateAll move) move)
      (block budget nested) (block budget relocated) := by
  refine ((relocates_expect .leftBrace).bind fun opening => ?_).advancing
  refine (relocates_itemsUntil nestedRelocates .rightBrace budget).bind
    fun body => ?_
  refine (relocates_expect .rightBrace).bind fun _ => relocates_pure ?_
  rw [Prod.map_apply, Statement.relocateAll_eq_map, Token.relocate_position]

theorem relocates_function
    (nestedRelocates : Relocates move (Statement.relocate move) nested relocated)
    (budget : Nat) (keyword : Token) :
    Relocates move (Statement.relocate move) (function budget nested keyword)
      (function budget relocated (keyword.relocate move)) := by
  refine (relocates_advance.bind fun _ => ?_).advancing
  refine (relocates_expect .identifier).bind fun name => ?_
  refine (relocates_expect .leftParen).bind fun _ => ?_
  refine (relocates_enclosed (relocates_expect .identifier) budget _).bind
    fun names => ?_
  refine (relocates_block nestedRelocates budget).bind fun body => ?_
  apply relocates_pure
  rw [Statement.relocate, List.map_map, List.map_map]
  rfl

theorem relocates_conditional
    (nestedRelocates : Relocates move (Statement.relocate move) nested relocated)
    (budget : Nat) (keyword : Token) :
    Relocates move (Statement.relocate move) (conditional budget nested keyword)
      (conditional budget relocated (keyword.relocate move)) := by
  refine (relocates_advance.bind fun _ => ?_).advancing
  refine (relocates_expect .leftParen).bind fun _ => ?_
  refine (relocates_expression budget).bind fun test => ?_
  refine (relocates_expect .rightParen).bind fun _ => ?_
  refine nestedRelocates.bind fun consequent => ?_
  refine (relocates_readIf fun _ => rfl).bind fun found => ?_
  cases found with
  | none => exact relocates_pure rfl
  | some otherwise => exact nestedRelocates.bind fun _ => relocates_pure rfl

theorem relocates_skipHeader (budget inner : Nat) :
    Relocates move id (skipHeader budget inner) (skipHeader budget inner) := by
  induction budget generalizing inner with
  | zero => exact relocates_exhausted
  | succ budget inductionHypothesis =>
      refine relocates_onNext (relocates_pure rfl) fun token => ?_
      refine relocates_advance.bind fun _ => ?_
      rw [Token.relocate_kind]
      split
      · exact inductionHypothesis (inner + 1)
      split
      · split
        · exact relocates_pure rfl
        · exact inductionHypothesis (inner - 1)
      · exact inductionHypothesis inner

theorem relocates_loop
    (nestedRelocates : Relocates move (Statement.relocate move) nested relocated)
    (budget : Nat) (keyword : Token) :
    Relocates move (Statement.relocate move) (loop budget nested keyword)
      (loop budget relocated (keyword.relocate move)) := by
  refine (relocates_advance.bind fun _ => ?_).advancing
  refine (relocates_expect .leftParen).bind fun _ => ?_
  refine (relocates_skipHeader budget 0).bind fun _ => ?_
  exact nestedRelocates.bind fun _ => relocates_pure rfl

theorem relocates_statementAt
    (nestedRelocates : Relocates move (Statement.relocate move) nested relocated)
    (budget : Nat) (token : Token) :
    Relocates move (Statement.relocate move) (statementAt budget nested token)
      (statementAt budget relocated (token.relocate move)) := by
  have spelling (kind : Token.Kind) (spellings : List Bytes) :
      (token.relocate move).isSpelled kind spellings =
        token.isSpelled kind spellings :=
    rfl
  unfold statementAt
  rw [Token.relocate_kind]
  simp only [spelling]
  split
  · exact relocates_declaration budget token
  split
  · exact relocates_function nestedRelocates budget token
  split
  · exact relocates_returning budget token
  split
  · exact relocates_conditional nestedRelocates budget token
  split
  · exact relocates_loop nestedRelocates budget token
  split
  · exact (relocates_block nestedRelocates budget).bind fun _ =>
      relocates_pure rfl
  · exact relocates_expressionStatement budget

theorem relocates_statement (budget : Nat) :
    Relocates move (Statement.relocate move) (statement budget)
      (statement budget) := by
  induction budget with
  | zero => exact relocates_exhausted
  | succ budget inductionHypothesis =>
      exact relocates_onNext (relocates_expressionStatement (budget + 1))
        (relocates_statementAt inductionHypothesis (budget + 1))

end Statements

/-! ### Programs -/

def Item.relocate (move : Position → Position) : Item → Item
  | kept statement => .kept (statement.relocate move)
  | dropped diagnostic => .dropped (diagnostic.relocate move)

theorem relocates_synchronize (budget : Nat) :
    Relocates move id (synchronize budget) (synchronize budget) := by
  have starts (token : Token) :
      startsStatement (token.relocate move) = startsStatement token :=
    rfl
  refine relocates_advance.bind fun _ => ?_
  induction budget with
  | zero => exact relocates_exhausted
  | succ budget inductionHypothesis =>
      refine relocates_onNext (relocates_pure rfl) fun token => ?_
      rw [starts, Token.relocate_kind]
      split
      · exact relocates_advance
      split
      · exact relocates_pure rfl
      · exact relocates_advance.bind fun _ => inductionHypothesis

theorem Reply.rest_relocate {α : Type} (convert : α → α) (reply : Reply α) :
    (reply.relocate move convert).rest = reply.rest.map (Token.relocate move) := by
  cases reply <;> rfl

theorem items_relocate (finish : Token) (budget : Nat) (tokens : List Token) :
    items (finish.relocate move) budget (tokens.map (Token.relocate move)) =
      (items finish budget tokens).map (Item.relocate move) := by
  induction budget generalizing tokens with
  | zero => rfl
  | succ budget inductionHypothesis =>
      cases tokens with
      | nil => rfl
      | cons token others =>
          have read : statement (budget + 1)
              (token.relocate move :: others.map (Token.relocate move)) =
                (statement (budget + 1) (token :: others)).relocate move
                  (Statement.relocate move) :=
            relocates_statement (budget + 1) (token :: others)
          simp only [List.map_cons, items, read]
          cases statement (budget + 1) (token :: others) with
          | accept statement rest =>
              exact congrArg _ (inductionHypothesis rest)
          | reject problem rest =>
              have resumed : (synchronize (budget + 1)
                    (rest.map (Token.relocate move))).rest =
                  (synchronize (budget + 1) rest).rest.map
                    (Token.relocate move) := by
                rw [relocates_synchronize, Reply.rest_relocate]
              have offending :
                  (rest.map (Token.relocate move)).head?.getD
                      (finish.relocate move) =
                    (rest.head?.getD finish).relocate move := by
                cases rest <;> rfl
              simp only [Reply.relocate, resumed, offending,
                inductionHypothesis]
              rfl

theorem filterMap_statement?_relocate (list : List Item) :
    (list.map (Item.relocate move)).filterMap Item.statement? =
      (list.filterMap Item.statement?).map (Statement.relocate move) := by
  rw [List.filterMap_map, List.map_filterMap]
  congr 1
  funext item
  cases item <;> rfl

theorem filterMap_diagnostic?_relocate (list : List Item) :
    (list.map (Item.relocate move)).filterMap Item.diagnostic? =
      (list.filterMap Item.diagnostic?).map (Diagnostic.relocate move) := by
  rw [List.filterMap_map, List.map_filterMap]
  congr 1
  funext item
  cases item <;> rfl

end Grammar

theorem Token.Stream.tokens_relocate (move : Position → Position)
    (all : List Token) :
    (ofTokens (all.map (Token.relocate move))).tokens =
      (ofTokens all).tokens.map (Token.relocate move) := by
  simp only [ofTokens]
  rw [List.filter_map, List.takeWhile_map]
  rfl

theorem Token.Stream.finish_relocate (move : Position → Position)
    (all : List Token) (remains : (ofTokens all).tokens ≠ []) :
    (ofTokens (all.map (Token.relocate move))).finish =
      (ofTokens all).finish.relocate move := by
  have last :
      ((ofTokens (all.map (Token.relocate move))).tokens.getLast?.map
          Token.position).getD .start =
        move (((ofTokens all).tokens.getLast?.map
          Token.position).getD .start) := by
    rw [tokens_relocate, List.getLast?_map,
      List.getLast?_eq_some_getLast remains]
    rfl
  have found (tokens : List Token) :
      (tokens.map (Token.relocate move)).find? isFinish =
        (tokens.find? isFinish).map (Token.relocate move) :=
    List.find?_map
  simp only [ofTokens] at last ⊢
  rw [last, List.filter_map, found]
  have same : (fun token : Token => !token.kind.isTrivia) ∘ Token.relocate move =
      fun token => !token.kind.isTrivia :=
    rfl
  rw [same]
  cases (all.filter fun token => !token.kind.isTrivia).find? isFinish <;> rfl

theorem parseTokens_relocate (move : Position → Position)
    (all : List Token) :
    parseTokens (all.map (Token.relocate move)) =
      (parseTokens all).relocate move := by
  have same :
      Grammar.items (Token.Stream.ofTokens (all.map (Token.relocate move))).finish
          ((Token.Stream.ofTokens all).tokens.length + 1)
          ((Token.Stream.ofTokens all).tokens.map (Token.relocate move)) =
        (Grammar.items (Token.Stream.ofTokens all).finish
          ((Token.Stream.ofTokens all).tokens.length + 1)
          (Token.Stream.ofTokens all).tokens).map
            (Grammar.Item.relocate move) := by
    by_cases empty : (Token.Stream.ofTokens all).tokens = []
    · rw [empty]
      rfl
    · rw [Token.Stream.finish_relocate move all empty, Grammar.items_relocate]
  unfold parseTokens Parsed.ofStream Parsed.ofItems
  rw [Token.Stream.tokens_relocate, List.length_map, same,
    Grammar.filterMap_statement?_relocate,
    Grammar.filterMap_diagnostic?_relocate]
  rfl

end ScriptAudit
