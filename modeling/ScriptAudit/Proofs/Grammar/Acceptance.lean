/-
Acceptance: the replies of the combinators and of each production on tokens that
suit them, given the replies of the productions inside.
-/

import ScriptAudit.Proofs.Grammar.Soundness

namespace ScriptAudit.Grammar

namespace Production

theorem bind_of_accept {α β : Type} {production : Production α}
    {next : α → Production β} {value : α} {tokens middle : List Token}
    (read : production tokens = .accept value middle) :
    (production >>= next) tokens = next value middle := by
  rw [bind_apply, read]
  rfl

theorem advance_bind {α : Type} (next : Unit → Production α) (token : Token)
    (rest : List Token) : (advance >>= next) (token :: rest) = next () rest :=
  rfl

theorem expect_cons {kind : Token.Kind} {token : Token} {rest : List Token}
    (same : token.kind = kind) :
    expect kind (token :: rest) = .accept token rest := by
  rw [expect, onNext_cons, if_pos same, taking_cons]

theorem readIf_cons {test : Token → Bool} {token : Token} {rest : List Token}
    (passes : test token = true) :
    readIf test (token :: rest) = .accept (some token) rest := by
  rw [readIf, onNext_cons, if_pos passes, taking_cons]

theorem readIf_stops {test : Token → Bool} {tokens : List Token}
    (stops : begins test tokens = false) :
    readIf test tokens = .accept none tokens := by
  cases tokens with
  | nil => rfl
  | cons token rest =>
      rw [begins_cons] at stops
      rw [readIf, onNext_cons, stops]
      rfl

theorem skips_cons {kind : Token.Kind} {token : Token} {rest : List Token}
    (same : token.kind = kind) :
    skips kind (token :: rest) = .accept true rest := by
  have passes : (fun token : Token => token.kind == kind) token = true :=
    beq_iff_eq.mpr same
  rw [skips, bind_of_accept (readIf_cons passes)]
  rfl

theorem skips_stops {kind : Token.Kind} {tokens : List Token}
    (stops : begins (fun token => token.kind == kind) tokens = false) :
    skips kind tokens = .accept false tokens := by
  rw [skips, bind_of_accept (readIf_stops stops)]
  rfl

def Continues {α : Type} (continues : Token → Bool)
    (step : α → Token → Production α) (first : α) (tokens : List Token)
    (value : α) (rest : List Token) : Prop :=
  ∃ rounds, rounds + rest.length ≤ tokens.length ∧
    ∀ more, extend continues step (rounds + more) first tokens =
      extend continues step more value rest

section Loops

variable {α : Type} {continues : Token → Bool}
  {step : α → Token → Production α} {first value extended : α}
  {tokens middle rest : List Token} {token : Token}

theorem Continues.refl : Continues continues step value tokens value tokens :=
  ⟨0, by omega, fun more => by rw [Nat.zero_add]⟩

theorem Continues.next
    (before : Continues continues step first tokens value (token :: middle))
    (passes : continues token = true)
    (stepped : step value token middle = .accept extended rest)
    (shorter : rest.length ≤ middle.length) :
    Continues continues step first tokens extended rest := by
  obtain ⟨rounds, bound, rounding⟩ := before
  rw [List.length_cons] at bound
  refine ⟨rounds + 1, by omega, fun more => ?_⟩
  rw [Nat.add_assoc, rounding, Nat.add_comm 1 more, extend,
    bind_of_accept (readIf_cons passes)]
  exact bind_of_accept stepped

theorem Continues.finish {budget : Nat}
    (before : Continues continues step first tokens value rest)
    (stops : begins continues rest = false) (enough : tokens.length < budget) :
    extend continues step budget first tokens = .accept value rest := by
  obtain ⟨rounds, bound, rounding⟩ := before
  obtain ⟨more, rfl⟩ : ∃ more, budget = rounds + (more + 1) :=
    ⟨budget - rounds - 1, by omega⟩
  rw [rounding, extend, bind_of_accept (readIf_stops stops)]
  rfl

end Loops

theorem separated_one {α : Type} {item : Production α} {rounds : Nat}
    {value : α} {tokens rest : List Token}
    (read : item tokens = .accept value rest)
    (stops : begins isComma rest = false) (positive : 0 < rounds) :
    separated item rounds tokens = .accept [value] rest := by
  obtain ⟨rounds, rfl⟩ := Nat.exists_eq_add_one_of_ne_zero (Nat.ne_of_gt positive)
  rw [separated, bind_of_accept read, bind_of_accept (skips_stops stops)]
  rfl

theorem separated_more {α : Type} {item : Production α} {rounds : Nat}
    {value : α} {others : List α} {tokens middle rest : List Token}
    {comma : Token} (read : item tokens = .accept value (comma :: middle))
    (kind : comma.kind = .comma)
    (tail : separated item (rounds - 1) middle = .accept others rest)
    (positive : 0 < rounds) :
    separated item rounds tokens = .accept (value :: others) rest := by
  obtain ⟨rounds, rfl⟩ := Nat.exists_eq_add_one_of_ne_zero (Nat.ne_of_gt positive)
  rw [separated, bind_of_accept read, bind_of_accept (skips_cons kind)]
  exact bind_of_accept tail

theorem enclosed_nil {α : Type} {item : Production α} {budget : Nat}
    {closing : Token} {close : Token.Kind} {rest : List Token}
    (closes : closing.kind = close) :
    enclosed budget close item (closing :: rest) = .accept [] rest := by
  have seen : sees close (closing :: rest) = .accept true (closing :: rest) :=
    congrArg (Reply.accept · (closing :: rest)) (beq_iff_eq.mpr closes)
  rw [enclosed, bind_of_accept seen]
  exact bind_of_accept (expect_cons closes)

theorem enclosed_cons {α : Type} {item : Production α} {budget : Nat}
    {closing : Token} {close : Token.Kind} {values : List α}
    {tokens rest : List Token}
    (opens : begins (fun token => token.kind == close) tokens = false)
    (list : separated item budget tokens = .accept values (closing :: rest))
    (closes : closing.kind = close) :
    enclosed budget close item tokens = .accept values rest := by
  have seen : sees close tokens = .accept false tokens :=
    congrArg (Reply.accept · tokens) opens
  rw [enclosed, bind_of_accept seen]
  show (separated item budget >>= fun items => expect close >>= fun _ =>
    pure items) tokens = _
  rw [bind_of_accept list]
  exact bind_of_accept (expect_cons closes)

theorem itemsUntil_nil {α : Type} {item : Production α} {rounds : Nat}
    {close : Token.Kind} {rest : List Token}
    (stops : begins (fun token => token.kind == close) rest = true)
    (positive : 0 < rounds) :
    itemsUntil close item rounds rest = .accept [] rest := by
  obtain ⟨rounds, rfl⟩ := Nat.exists_eq_add_one_of_ne_zero (Nat.ne_of_gt positive)
  have seen : sees close rest = .accept true rest :=
    congrArg (Reply.accept · rest) stops
  rw [itemsUntil, bind_of_accept seen]
  rfl

theorem itemsUntil_cons {α : Type} {item : Production α} {rounds : Nat}
    {close : Token.Kind} {value : α} {others : List α}
    {tokens middle rest : List Token} (remains : tokens ≠ [])
    (opens : begins (fun token => token.kind == close) tokens = false)
    (read : item tokens = .accept value middle)
    (tail : itemsUntil close item (rounds - 1) middle = .accept others rest)
    (positive : 0 < rounds) :
    itemsUntil close item rounds tokens = .accept (value :: others) rest := by
  obtain ⟨rounds, rfl⟩ := Nat.exists_eq_add_one_of_ne_zero (Nat.ne_of_gt positive)
  have seen : sees close tokens = .accept false tokens :=
    congrArg (Reply.accept · tokens) opens
  have unended : seesEnd tokens = .accept false tokens := by
    obtain ⟨token, others, rfl⟩ := List.exists_cons_of_ne_nil remains
    rfl
  rw [itemsUntil, bind_of_accept seen, bind_of_accept unended]
  show (item >>= fun first => itemsUntil close item rounds >>= fun others =>
    pure (first :: others)) tokens = _
  rw [bind_of_accept read]
  exact bind_of_accept tail

end Production

open Production

/-! ### Expressions -/

section Expressions

variable {budget : Nat} {nested : Production Expr}
  {tokens middle rest : List Token} {opening closing : Token}

theorem property_named {name colon : Token} {value : Expr}
    (kind : name.kind = .identifier) (colonKind : colon.kind = .colon)
    (read : nested tokens = .accept value rest) :
    property nested (name :: colon :: tokens) =
      .accept
        (.entry (.identifier (identifierOf name)) value name.position) rest := by
  have key : propertyKey (name :: colon :: tokens) =
      .accept (.identifier (identifierOf name)) (colon :: tokens) := by
    simp [propertyKey, kind]
  rw [property, bind_of_accept key, bind_of_accept (expect_cons colonKind)]
  exact bind_of_accept read

theorem property_quoted {quote colon : Token} {key : Literal} {value : Expr}
    (kind : quote.kind = .string) (writes : literal? quote = some key)
    (colonKind : colon.kind = .colon)
    (read : nested tokens = .accept value rest) :
    property nested (quote :: colon :: tokens) =
      .accept (.entry (.literal key) value quote.position) rest := by
  have keyRead : propertyKey (quote :: colon :: tokens) =
      .accept (.literal key) (colon :: tokens) := by
    simp [propertyKey, kind, writes]
  rw [property, bind_of_accept keyRead, bind_of_accept (expect_cons colonKind),
    ← position_of_literal? writes]
  exact bind_of_accept read

theorem primary_literal {token : Token} {content : Literal}
    (writes : literal? token = some content) :
    primary budget nested (token :: rest) = .accept (.literal content) rest := by
  have kind := kind_of_literal? writes
  simp only [literalKinds, List.mem_cons, List.not_mem_nil, or_false] at kind
  rcases kind with kind | kind | kind | kind <;>
    simp [primary, primaryAt, kind, writes]

theorem primary_parenthesized {value : Expr} (opens : opening.kind = .leftParen)
    (read : nested tokens = .accept value (closing :: rest))
    (closes : closing.kind = .rightParen) :
    primary budget nested (opening :: tokens) = .accept value rest := by
  simp only [primary, advancing_apply, onNext_cons, primaryAt, opens]
  rw [parenthesized, advance_bind, bind_of_accept read]
  exact bind_of_accept (expect_cons closes)

theorem primary_array {values : List Expr} (opens : opening.kind = .leftBracket)
    (list : enclosed budget .rightBracket nested tokens = .accept values rest) :
    primary budget nested (opening :: tokens) =
      .accept (.array values opening.position) rest := by
  simp only [primary, advancing_apply, onNext_cons, primaryAt, opens]
  exact bind_of_accept list

theorem primary_object {entries : List Property}
    (opens : opening.kind = .leftBrace)
    (list : enclosed budget .rightBrace (property nested) tokens =
      .accept entries rest) :
    primary budget nested (opening :: tokens) =
      .accept (.object entries opening.position) rest := by
  simp only [primary, advancing_apply, onNext_cons, primaryAt, opens]
  exact bind_of_accept list

theorem access_member {target : Expr} {dot name : Token}
    (dotted : dot.kind = .dot) (kind : name.kind = .identifier) :
    access budget nested target dot (name :: rest) =
      .accept (.member target (.identifier (identifierOf name)) false
        target.position) rest := by
  simp only [access, dotted]
  exact bind_of_accept (expect_cons kind)

theorem access_index {target value : Expr} (opens : opening.kind = .leftBracket)
    (read : nested tokens = .accept value (closing :: rest))
    (closes : closing.kind = .rightBracket) :
    access budget nested target opening tokens =
      .accept (.member target value true target.position) rest := by
  simp only [access, opens]
  rw [bind_of_accept read]
  exact bind_of_accept (expect_cons closes)

theorem access_call {target : Expr} {values : List Expr}
    (opens : opening.kind = .leftParen)
    (list : enclosed budget .rightParen nested tokens = .accept values rest) :
    access budget nested target opening tokens =
      .accept (.call target values target.position) rest := by
  simp only [access, opens]
  exact bind_of_accept list

theorem updated_settled {first value : Expr}
    (read : primary budget nested tokens = .accept first middle)
    (extended : extend opensAccess (access budget nested) budget first middle =
      .accept value rest)
    (noUpdate : begins isUpdate rest = false) :
    updated budget nested tokens = .accept value rest := by
  rw [updated, advancing_apply, bind_of_accept read, bind_of_accept extended]
  exact bind_of_accept (readIf_stops noUpdate)

theorem updated_update {first value : Expr} {operator : Token}
    (read : primary budget nested tokens = .accept first middle)
    (extended : extend opensAccess (access budget nested) budget first middle =
      .accept value (operator :: rest))
    (updates : isUpdate operator = true) :
    updated budget nested tokens =
      .accept (.unary operator.lexeme .after value value.position) rest := by
  rw [updated, advancing_apply, bind_of_accept read, bind_of_accept extended]
  exact bind_of_accept (readIf_cons updates)

theorem unary_operator {operand : Production Expr} {value : Expr}
    {operator : Token} {rounds : Nat} (kind : operator.kind = .unary)
    (read : unary operand rounds tokens = .accept value rest) :
    unary operand (rounds + 1) (operator :: tokens) =
      .accept (.unary operator.lexeme .before value operator.position) rest := by
  rw [unary, advancing_apply, onNext_cons, if_pos kind, advance_bind,
    bind_of_accept read]
  rfl

theorem unary_operand {operand : Production Expr} {value : Expr} {rounds : Nat}
    (opens : begins opensPrimary tokens = true)
    (read : operand tokens = .accept value rest) :
    unary operand (rounds + 1) tokens = .accept value rest := by
  cases tokens with
  | nil => exact read
  | cons token others =>
      have notUnary : token.kind ≠ .unary := by
        intro kind
        rw [begins_cons, opensPrimary, kind] at opens
        cases opens
      rw [unary, advancing_apply, onNext_cons, if_neg notUnary]
      exact read

theorem assignment_simple {value : Expr}
    (ladder : binary budget (unary (updated budget nested) (budget + 1)) ranks
      tokens =
      .accept value rest)
    (stops : begins isAssignment rest = false) :
    assignment budget nested tokens = .accept value rest := by
  rw [assignment, advancing_apply, bind_of_accept ladder]
  exact bind_of_accept (readIf_stops stops)

theorem assignment_assigned {target value : Expr} {operator : Token}
    (ladder : binary budget (unary (updated budget nested) (budget + 1)) ranks
      tokens =
      .accept target (operator :: middle))
    (kind : operator.kind = .assignment)
    (read : nested middle = .accept value rest) :
    assignment budget nested tokens =
      .accept (.assignment operator.lexeme target value target.position)
        rest := by
  have passes : isAssignment operator = true := beq_iff_eq.mpr kind
  rw [assignment, advancing_apply, bind_of_accept ladder]
  refine (bind_of_accept (readIf_cons passes)).trans ?_
  exact bind_of_accept read

end Expressions

/-! ### Statements -/

section Statements

variable {budget : Nat} {nested : Production Statement}
  {tokens middle rest : List Token} {keyword opening closing : Token}

theorem skips_of_terminates (ends : Terminates middle rest) :
    ∃ skipped, skips .semicolon middle = .accept skipped rest := by
  cases ends with
  | semicolon kind => exact ⟨true, skips_cons kind⟩
  | absent stops => exact ⟨false, skips_stops stops⟩

theorem declarator_declared {name : Token} (kind : name.kind = .identifier)
    (stops : begins isEquals rest = false) :
    declarator budget (name :: rest) =
      .accept ⟨identifierOf name, none, name.position⟩ rest := by
  rw [declarator, advancing_apply, bind_of_accept (expect_cons kind)]
  exact bind_of_accept (readIf_stops stops)

theorem declarator_initialized {name equals : Token} {value : Expr}
    (kind : name.kind = .identifier) (spelled : isEquals equals = true)
    (read : expression budget tokens = .accept value rest) :
    declarator budget (name :: equals :: tokens) =
      .accept ⟨identifierOf name, some value, name.position⟩ rest := by
  have init : (some <$> expression budget) tokens = .accept (some value) rest :=
    bind_of_accept read
  rw [declarator, advancing_apply, bind_of_accept (expect_cons kind)]
  refine (bind_of_accept (readIf_cons spelled)).trans ?_
  exact bind_of_accept init

theorem declaration_accept {contents : List Declarator}
    (list : separated (declarator budget) budget tokens =
      .accept contents middle)
    (ends : Terminates middle rest) :
    declaration budget keyword (keyword :: tokens) =
      .accept (.declaration keyword.lexeme contents keyword.position) rest := by
  obtain ⟨skipped, skip⟩ := skips_of_terminates ends
  rw [declaration, advancing_apply, advance_bind, bind_of_accept list]
  exact bind_of_accept skip

theorem returning_nothing (stops : tokens = [] ∨ begins endsReturn tokens = true)
    (ends : Terminates tokens rest) :
    returning budget keyword (keyword :: tokens) =
      .accept (.returning none keyword.position) rest := by
  have argument : returnArgument budget tokens = .accept none tokens := by
    rw [returnArgument_apply, if_pos stops]
  obtain ⟨skipped, skip⟩ := skips_of_terminates ends
  rw [returning, advancing_apply, advance_bind, bind_of_accept argument]
  exact bind_of_accept skip

theorem kind_of_opensExpression {token : Token}
    (opens : opensExpression token = true) :
    token.kind ∈ Token.Kind.unary :: primaryKinds := by
  simpa [opensExpression, opensPrimary] using opens

theorem begins_disjoint {test other : Token → Bool}
    (disjoint : ∀ token, test token = true → other token = false)
    (holds : begins test tokens = true) : begins other tokens = false := by
  cases tokens with
  | nil => rfl
  | cons token others => exact disjoint token holds

theorem kind_ne_of_opensExpression {kind : Token.Kind}
    (outside : kind ∉ Token.Kind.unary :: primaryKinds) (token : Token)
    (opens : opensExpression token = true) : (token.kind == kind) = false := by
  rw [beq_eq_false_iff_ne]
  rintro rfl
  exact outside (kind_of_opensExpression opens)

theorem returning_value {value : Expr}
    (opens : begins opensExpression tokens = true)
    (read : expression budget tokens = .accept value middle)
    (ends : Terminates middle rest) :
    returning budget keyword (keyword :: tokens) =
      .accept (.returning (some value) keyword.position) rest := by
  have unseen : ¬(tokens = [] ∨ begins endsReturn tokens = true) := by
    rintro (rfl | stops)
    · cases opens
    · rw [begins_disjoint _ opens] at stops
      · cases stops
      · intro token opens
        rw [endsReturn, kind_ne_of_opensExpression (by decide) token opens,
          kind_ne_of_opensExpression (by decide) token opens]
        rfl
  have argument : returnArgument budget tokens = .accept (some value) middle := by
    rw [returnArgument_apply, if_neg unseen]
    exact bind_of_accept read
  obtain ⟨skipped, skip⟩ := skips_of_terminates ends
  rw [returning, advancing_apply, advance_bind, bind_of_accept argument]
  exact bind_of_accept skip

theorem expressionStatement_accept {value : Expr}
    (read : expression budget tokens = .accept value middle)
    (ends : Terminates middle rest) :
    expressionStatement budget tokens =
      .accept (.expression value value.position) rest := by
  obtain ⟨skipped, skip⟩ := skips_of_terminates ends
  rw [expressionStatement, advancing_apply, bind_of_accept read]
  exact bind_of_accept skip

theorem block_accept {body : List Statement} (opens : opening.kind = .leftBrace)
    (list : itemsUntil .rightBrace nested budget tokens =
      .accept body (closing :: rest))
    (closes : closing.kind = .rightBrace) :
    block budget nested (opening :: tokens) =
      .accept (body, opening.position) rest := by
  rw [block, advancing_apply, bind_of_accept (expect_cons opens), bind_of_accept list]
  exact bind_of_accept (expect_cons closes)

theorem function_accept {name : Token} {names : List Token}
    {body : List Statement} {bodyPosition : Position}
    (kind : name.kind = .identifier) (opens : opening.kind = .leftParen)
    (list : enclosed budget .rightParen (expect .identifier) tokens =
      .accept names middle)
    (read : block budget nested middle = .accept (body, bodyPosition) rest) :
    function budget nested keyword (keyword :: name :: opening :: tokens) =
      .accept (.function (identifierOf name) (names.map identifierOf) body
        bodyPosition keyword.position) rest := by
  rw [function, advancing_apply, advance_bind, bind_of_accept (expect_cons kind),
    bind_of_accept (expect_cons opens), bind_of_accept list]
  exact bind_of_accept read

theorem conditional_then {test : Expr} {consequent : Statement}
    {front : List Token} (opens : opening.kind = .leftParen)
    (condition : expression budget tokens = .accept test (closing :: front))
    (closes : closing.kind = .rightParen)
    (branch : nested front = .accept consequent rest)
    (stops : begins isElse rest = false) :
    conditional budget nested keyword (keyword :: opening :: tokens) =
      .accept (.ifThen test consequent keyword.position) rest := by
  rw [conditional, advancing_apply, advance_bind, bind_of_accept (expect_cons opens),
    bind_of_accept condition, bind_of_accept (expect_cons closes),
    bind_of_accept branch]
  exact bind_of_accept (readIf_stops stops)

theorem conditional_else {test : Expr} {consequent alternate : Statement}
    {front others : List Token} {otherwise : Token}
    (opens : opening.kind = .leftParen)
    (condition : expression budget tokens = .accept test (closing :: front))
    (closes : closing.kind = .rightParen)
    (branch : nested front = .accept consequent (otherwise :: others))
    (elseSpelled : isElse otherwise = true)
    (other : nested others = .accept alternate rest) :
    conditional budget nested keyword (keyword :: opening :: tokens) =
      .accept (.ifElse test consequent alternate keyword.position) rest := by
  rw [conditional, advancing_apply, advance_bind, bind_of_accept (expect_cons opens),
    bind_of_accept condition, bind_of_accept (expect_cons closes),
    bind_of_accept branch]
  refine (bind_of_accept (readIf_cons elseSpelled)).trans ?_
  exact bind_of_accept other

theorem skipHeader_closing {rounds inner : Nat}
    (closes : closing.kind = .rightParen) :
    skipHeader (rounds + 1) inner (closing :: rest) =
      if inner = 0 then .accept () rest
      else skipHeader rounds (inner - 1) rest := by
  have notOpening : closing.kind ≠ .leftParen := by
    rw [closes]
    decide
  rw [skipHeader, onNext_cons, advance_bind, if_neg notOpening, if_pos closes]
  split <;> rfl

/-- A balanced run is skipped without closing anything opened before it. -/
theorem skipHeader_append {header : List Token} (balanced : Balanced header)
    (rounds inner : Nat) (others : List Token) :
    skipHeader (header.length + rounds) inner (header ++ others) =
      skipHeader rounds inner others := by
  induction balanced generalizing rounds inner others with
  | nil => rw [List.length_nil, Nat.zero_add, List.nil_append]
  | @token first header notOpening notClosing _ inductionHypothesis =>
      rw [List.length_cons, Nat.succ_add, List.cons_append, skipHeader,
        onNext_cons, advance_bind, if_neg notOpening, if_neg notClosing]
      exact inductionHypothesis rounds inner others
  | @group first last header following opens closes _ _ innerHypothesis
      restHypothesis =>
      have length : (first :: header ++ last :: following).length + rounds =
          header.length + (following.length + rounds + 1) + 1 := by
        simp only [List.cons_append, List.length_cons, List.length_append]
        omega
      rw [length, List.append_assoc, List.cons_append, List.cons_append, skipHeader,
        onNext_cons, advance_bind, if_pos opens, innerHypothesis,
        skipHeader_closing closes, if_neg (Nat.succ_ne_zero inner)]
      exact restHypothesis rounds inner others

theorem loop_accept {body : Statement} {header : List Token}
    (opens : opening.kind = .leftParen) (balanced : Balanced header)
    (closes : closing.kind = .rightParen)
    (read : nested middle = .accept body rest) (enough : header.length < budget) :
    loop budget nested keyword
        (keyword :: opening :: (header ++ closing :: middle)) =
      .accept (.loop (loopKind keyword) body keyword.position) rest := by
  obtain ⟨rounds, rfl⟩ : ∃ rounds, budget = header.length + (rounds + 1) :=
    ⟨budget - header.length - 1, by omega⟩
  have skipped : skipHeader (header.length + (rounds + 1)) 0
      (header ++ closing :: middle) = .accept () middle := by
    rw [skipHeader_append balanced, skipHeader_closing closes, if_pos rfl]
  rw [loop, advancing_apply, advance_bind, bind_of_accept (expect_cons opens),
    bind_of_accept skipped]
  exact bind_of_accept read

end Statements

section Dispatch

variable {budget : Nat} {token : Token} {tokens rest : List Token}

theorem not_isSpelled_of_kind {kind : Token.Kind} (other : token.kind ≠ kind)
    (spellings : List Bytes) : ¬token.isSpelled kind spellings = true :=
  fun spelled => other (kind_of_isSpelled spelled)

theorem statement_cons :
    statement (budget + 1) (token :: rest) =
      statementAt (budget + 1) (statement budget) token (token :: rest) :=
  rfl

theorem statement_declaration
    (spelled : token.isSpelled .keyword ["var", "let", "const"] = true) :
    statement (budget + 1) (token :: rest) =
      declaration (budget + 1) token (token :: rest) := by
  rw [statement_cons, statementAt, if_pos spelled]

theorem statement_function
    (spelled : token.isSpelled .keyword ["function"] = true) :
    statement (budget + 1) (token :: rest) =
      function (budget + 1) (statement budget) token (token :: rest) := by
  rw [statement_cons, statementAt,
    if_neg (not_isSpelled_of_disjoint spelled), if_pos spelled]

theorem statement_return
    (spelled : token.isSpelled .keyword ["return"] = true) :
    statement (budget + 1) (token :: rest) =
      returning (budget + 1) token (token :: rest) := by
  rw [statement_cons, statementAt,
    if_neg (not_isSpelled_of_disjoint spelled),
    if_neg (not_isSpelled_of_disjoint spelled), if_pos spelled]

theorem statement_if (spelled : token.isSpelled .keyword ["if"] = true) :
    statement (budget + 1) (token :: rest) =
      conditional (budget + 1) (statement budget) token (token :: rest) := by
  rw [statement_cons, statementAt,
    if_neg (not_isSpelled_of_disjoint spelled),
    if_neg (not_isSpelled_of_disjoint spelled),
    if_neg (not_isSpelled_of_disjoint spelled), if_pos spelled]

theorem statement_loop
    (spelled : token.isSpelled .keyword ["while", "for"] = true) :
    statement (budget + 1) (token :: rest) =
      loop (budget + 1) (statement budget) token (token :: rest) := by
  rw [statement_cons, statementAt,
    if_neg (not_isSpelled_of_disjoint spelled),
    if_neg (not_isSpelled_of_disjoint spelled),
    if_neg (not_isSpelled_of_disjoint spelled),
    if_neg (not_isSpelled_of_disjoint spelled), if_pos spelled]

theorem statementAt_of_kind {nested : Production Statement}
    (notKeyword : token.kind ≠ .keyword) :
    statementAt budget nested token =
      if token.kind = .leftBrace then blockStatement budget nested
      else expressionStatement budget := by
  rw [statementAt, if_neg (not_isSpelled_of_kind notKeyword _),
    if_neg (not_isSpelled_of_kind notKeyword _),
    if_neg (not_isSpelled_of_kind notKeyword _),
    if_neg (not_isSpelled_of_kind notKeyword _),
    if_neg (not_isSpelled_of_kind notKeyword _)]

theorem statement_block (opens : begins opensBrace tokens = true) :
    statement (budget + 1) tokens =
      blockStatement (budget + 1) (statement budget) tokens := by
  cases tokens with
  | nil => cases opens
  | cons token rest =>
      have kind : token.kind = .leftBrace := eq_of_beq opens
      rw [statement_cons, statementAt_of_kind (by rw [kind]; decide), if_pos kind]

theorem statement_expression (notBlock : begins opensBrace tokens = false)
    (opens : begins opensExpression tokens = true) :
    statement (budget + 1) tokens = expressionStatement (budget + 1) tokens := by
  cases tokens with
  | nil => cases opens
  | cons token rest =>
      have notKeyword : token.kind ≠ .keyword := by
        intro kind
        have member := kind_of_opensExpression opens
        rw [kind] at member
        exact absurd member (by decide)
      have notBrace : token.kind ≠ .leftBrace := by
        simpa [opensBrace] using notBlock
      rw [statement_cons, statementAt_of_kind notKeyword, if_neg notBrace]

theorem not_rightBrace_of_opensStatement (token : Token)
    (opens : opensStatement token = true) :
    (token.kind == .rightBrace) = false := by
  rw [opensStatement, Bool.or_eq_true, Bool.or_eq_true] at opens
  rcases opens with (starts | brace) | expression
  · rw [kind_of_isSpelled starts]
    rfl
  · rw [eq_of_beq brace]
    rfl
  · exact kind_ne_of_opensExpression (by decide) token expression

end Dispatch

end ScriptAudit.Grammar
