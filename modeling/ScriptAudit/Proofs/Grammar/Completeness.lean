/-
Completeness: whatever has a reading is accepted, by every budget that exceeds
the number of tokens. With soundness, a production accepts exactly the readings
of its phrase, and the budget never shows.
-/

import ScriptAudit.Proofs.Grammar.Acceptance

namespace ScriptAudit

namespace Grammar

open Production

def operand (budget : Nat) : Production Expr :=
  unary (updated budget (expression budget)) (budget + 1)

/--
What it means for the production of a phrase to accept it. Loops that have not
ended yet are said to have come as far as the phrase.
-/
def Accepts (tokens rest : List Token) : Phrase → Prop
  | .primary value => ∀ budget, tokens.length ≤ budget →
      primary budget (expression budget) tokens = .accept value rest
  | .accessed value => ∀ budget, tokens.length ≤ budget →
      ∃ first middle, middle.length < tokens.length ∧
        primary budget (expression budget) tokens = .accept first middle ∧
          Continues opensAccess (access budget (expression budget)) first middle
            value rest
  | .updated value => ∀ budget, tokens.length ≤ budget →
      updated budget (expression budget) tokens = .accept value rest
  | .unary value => ∀ budget, tokens.length ≤ budget →
      ∀ rounds, tokens.length < rounds →
        unary (updated budget (expression budget)) rounds tokens =
          .accept value rest
  | .chain rank tighter value => ∀ budget, tokens.length ≤ budget →
      ∃ first middle, middle.length < tokens.length ∧
        binary budget (operand budget) tighter tokens = .accept first middle ∧
          Continues rank.admits (joined (binary budget (operand budget) tighter))
            first middle value rest
  | .binary ladder value => ∀ budget, tokens.length ≤ budget →
      binary budget (operand budget) ladder tokens = .accept value rest
  | .expression value => ∀ budget, tokens.length < budget →
      expression budget tokens = .accept value rest
  | .expressions values => values ≠ [] → ∀ budget rounds,
      tokens.length < budget → tokens.length < rounds →
        separated (expression budget) rounds tokens = .accept values rest
  | .property entry => ∀ budget, tokens.length < budget →
      property (expression budget) tokens = .accept entry rest
  | .properties entries => entries ≠ [] → ∀ budget rounds,
      tokens.length < budget → tokens.length < rounds →
        separated (property (expression budget)) rounds tokens =
          .accept entries rest
  | .parameters names => names ≠ [] → ∀ rounds, tokens.length < rounds →
      separated (expect .identifier) rounds tokens = .accept names rest
  | .declarator content => ∀ budget, tokens.length < budget →
      declarator budget tokens = .accept content rest
  | .declarators contents => ∀ budget rounds,
      tokens.length < budget → tokens.length < rounds →
        separated (declarator budget) rounds tokens = .accept contents rest
  | .block body position => ∀ budget, tokens.length ≤ budget →
      block (budget + 1) (statement budget) tokens =
        .accept (body, position) rest
  | .statement content => ∀ budget, tokens.length < budget →
      statement budget tokens = .accept content rest
  | .statements contents =>
      begins (fun token => token.kind == .rightBrace) rest = true →
        ∀ budget rounds, tokens.length < budget → tokens.length < rounds →
          itemsUntil .rightBrace (statement budget) rounds tokens =
            .accept contents rest

section Lists

variable {budget : Nat} {close : Token.Kind} {closing : Token}
  {tokens rest : List Token}

theorem enclosed_accept {α : Type} {item : Production α} {values : List α}
    (empty : values = [] → tokens = closing :: rest)
    (opens : values ≠ [] →
      begins (fun token => token.kind == close) tokens = false)
    (list : values ≠ [] →
      separated item budget tokens = .accept values (closing :: rest))
    (closes : closing.kind = close) :
    enclosed budget close item tokens = .accept values rest := by
  by_cases none : values = []
  · rw [none, empty none]
    exact enclosed_nil closes
  · exact enclosed_cons (opens none) (list none) closes

theorem enclosed_expressions {values : List Expr}
    (reading : Reads (.expressions values) tokens (closing :: rest))
    (accepts : Accepts tokens (closing :: rest) (.expressions values))
    (outside : close ∉ Token.Kind.unary :: primaryKinds)
    (closes : closing.kind = close) (enough : tokens.length < budget) :
    enclosed budget close (expression budget) tokens = .accept values rest := by
  refine enclosed_accept ?_ ?_ (fun some => accepts some _ _ enough enough) closes
  · rintro rfl
    cases reading
    rfl
  · intro some
    obtain ⟨first, others, rfl⟩ := List.exists_cons_of_ne_nil some
    exact begins_disjoint (kind_ne_of_opensExpression outside)
      (reading.begins_first rfl)

theorem enclosed_properties {entries : List Property}
    (reading : Reads (.properties entries) tokens (closing :: rest))
    (accepts : Accepts tokens (closing :: rest) (.properties entries))
    (closes : closing.kind = .rightBrace) (enough : tokens.length < budget) :
    enclosed budget .rightBrace (property (expression budget)) tokens =
      .accept entries rest := by
  refine enclosed_accept ?_ ?_ (fun some => accepts some _ _ enough enough) closes
  · rintro rfl
    cases reading
    rfl
  · intro some
    obtain ⟨first, others, rfl⟩ := List.exists_cons_of_ne_nil some
    refine begins_disjoint ?_ (reading.begins_first rfl)
    intro token opens
    simp only [opensProperty, Bool.or_eq_true, beq_iff_eq] at opens
    rcases opens with kind | kind <;> rw [kind] <;> rfl

theorem enclosed_parameters {names : List Token}
    (reading : Reads (.parameters names) tokens (closing :: rest))
    (accepts : Accepts tokens (closing :: rest) (.parameters names))
    (closes : closing.kind = .rightParen) (enough : tokens.length < budget) :
    enclosed budget .rightParen (expect .identifier) tokens =
      .accept names rest := by
  refine enclosed_accept ?_ ?_ (fun some => accepts some _ enough) closes
  · rintro rfl
    cases reading
    rfl
  · intro some
    obtain ⟨first, others, rfl⟩ := List.exists_cons_of_ne_nil some
    refine begins_disjoint ?_ (reading.begins_first rfl)
    intro token isName
    rw [eq_of_beq isName]
    rfl

end Lists

theorem forall_budget {holds : Nat → Prop} {size : Nat}
    (step : ∀ budget, size ≤ budget → holds (budget + 1)) :
    ∀ budget, size < budget → holds budget := by
  intro budget enough
  cases budget with
  | zero => exact absurd enough (Nat.not_lt_zero size)
  | succ budget => exact step budget (Nat.le_of_lt_succ enough)

theorem accepts_of_reads {phrase : Phrase} {tokens rest : List Token}
    (reading : Reads phrase tokens rest) : Accepts tokens rest phrase := by
  induction reading with
  | identifier kind =>
      intro budget enough
      simp only [primary, advancing_apply, onNext_cons, primaryAt, kind,
        taking_cons]
  | literal writes =>
      intro budget enough
      exact primary_literal writes
  | parenthesized opens _ closes nested =>
      intro budget enough
      exact primary_parenthesized opens (nested budget enough) closes
  | array opens elements closes accepts =>
      intro budget enough
      exact primary_array opens
        (enclosed_expressions elements accepts (by decide) closes enough)
  | object opens properties closes accepts =>
      intro budget enough
      exact primary_object opens
        (enclosed_properties properties accepts closes enough)
  | bare reading primary =>
      intro budget enough
      -- The loop over the accesses has not ended: it has come this far in no rounds.
      exact ⟨_, _, reading.length_lt rfl, primary budget enough, .refl⟩
  | member _ dotted kind object =>
      intro budget enough
      obtain ⟨first, middle, shorter, read, before⟩ := object budget enough
      exact ⟨first, middle, shorter, read,
        before.next (by simp [opensAccess, dotted])
          (access_member dotted kind) (Nat.le_succ _)⟩
  | index reading opens inner closes object selector =>
      intro budget enough
      obtain ⟨first, middle, shorter, read, before⟩ := object budget enough
      have taken := reading.length_lt rfl
      have innerTaken := inner.length_lt rfl
      rw [List.length_cons] at taken innerTaken
      exact ⟨first, middle, shorter, read,
        before.next (by simp [opensAccess, opens])
          (access_index opens (selector budget (by omega)) closes) (by omega)⟩
  | call reading opens arguments closes callee accepts =>
      intro budget enough
      obtain ⟨first, middle, shorter, read, before⟩ := callee budget enough
      have taken := reading.length_lt rfl
      have innerTaken := arguments.length_le
      rw [List.length_cons] at taken innerTaken
      exact ⟨first, middle, shorter, read,
        before.next (by simp [opensAccess, opens])
          (access_call opens (enclosed_expressions arguments accepts
            (by decide) closes (by omega))) (by omega)⟩
  | settled _ noAccess noUpdate accessed =>
      intro budget enough
      obtain ⟨first, middle, shorter, read, before⟩ := accessed budget enough
      exact updated_settled read (before.finish noAccess (by omega)) noUpdate
  | update _ updates accessed =>
      intro budget enough
      obtain ⟨first, middle, shorter, read, before⟩ := accessed budget enough
      have kind := kind_of_isUpdate updates
      exact updated_update read
        (before.finish (by simp [opensAccess, kind]) (by omega)) updates
  | operand reading updated =>
      intro budget enough
      refine forall_budget fun rounds _ => ?_
      exact unary_operand (reading.begins_first rfl) (updated budget enough)
  | operator kind _ operand =>
      intro budget enough
      refine forall_budget fun rounds many => ?_
      exact unary_operator kind
        (operand budget (Nat.le_of_succ_le enough) rounds many)
  | first reading operand =>
      intro budget enough
      exact ⟨_, _, reading.length_lt rfl, operand budget enough, .refl⟩
  | join reading admitted right chain operand =>
      intro budget enough
      obtain ⟨first, middle, shorter, read, before⟩ := chain budget enough
      have taken := reading.length_lt rfl
      have rightTaken := right.length_lt rfl
      rw [List.length_cons] at taken
      exact ⟨first, middle, shorter, read,
        before.next admitted (bind_of_accept (operand budget (by omega)))
          (by omega)⟩
  | innermost _ unary =>
      intro budget enough
      exact unary budget enough (budget + 1) (Nat.lt_succ_of_le enough)
  | rank _ stops chain =>
      intro budget enough
      obtain ⟨first, middle, shorter, read, before⟩ := chain budget enough
      rw [binary, advancing_apply, bind_of_accept read]
      exact before.finish stops (by omega)
  | simple _ stops ladder =>
      refine forall_budget fun budget enough => ?_
      exact assignment_simple (ladder budget enough) stops
  | assignment reading kind _ ladder assigned =>
      refine forall_budget fun budget enough => ?_
      have taken := reading.length_lt rfl
      rw [List.length_cons] at taken
      exact assignment_assigned (ladder budget enough) kind
        (assigned budget (by omega))
  | noExpressions | noProperties | noParameters =>
      intro some
      exact absurd rfl some
  | oneExpression _ stops only | oneProperty _ stops only =>
      intro _ budget rounds enough many
      exact separated_one (only budget enough) stops (Nat.zero_lt_of_lt many)
  | moreExpressions reading kind _ head tail
  | moreProperties reading kind _ head tail =>
      intro _ budget rounds enough many
      have taken := reading.length_lt rfl
      rw [List.length_cons] at taken
      exact separated_more (head budget enough) kind
        (tail (List.cons_ne_nil _ _) budget (rounds - 1) (by omega) (by omega))
        (Nat.zero_lt_of_lt many)
  | namedProperty kind colonKind _ content =>
      intro budget enough
      rw [List.length_cons, List.length_cons] at enough
      exact property_named kind colonKind (content budget (by omega))
  | quotedProperty kind writes colonKind _ content =>
      intro budget enough
      rw [List.length_cons, List.length_cons] at enough
      exact property_quoted kind writes colonKind (content budget (by omega))
  | oneParameter kind stops =>
      intro _ rounds many
      exact separated_one (expect_cons kind) stops (Nat.zero_lt_of_lt many)
  | moreParameters kind commaKind _ tail =>
      intro _ rounds many
      rw [List.length_cons, List.length_cons] at many
      exact separated_more (expect_cons kind) commaKind
        (tail (List.cons_ne_nil _ _) (rounds - 1) (by omega)) (by omega)
  | declared kind stops =>
      intro budget enough
      exact declarator_declared kind stops
  | initialized kind spelled _ init =>
      intro budget enough
      rw [List.length_cons, List.length_cons] at enough
      exact declarator_initialized kind spelled (init budget (by omega))
  | oneDeclarator _ stops only =>
      intro budget rounds enough many
      exact separated_one (only budget enough) stops (Nat.zero_lt_of_lt many)
  | moreDeclarators reading kind _ head tail =>
      intro budget rounds enough many
      have taken := reading.length_lt rfl
      rw [List.length_cons] at taken
      exact separated_more (head budget enough) kind
        (tail budget (rounds - 1) (by omega) (by omega))
        (Nat.zero_lt_of_lt many)
  | declaration spelled _ ends list =>
      refine forall_budget fun budget enough => ?_
      rw [List.length_cons] at enough
      rw [statement_declaration spelled]
      exact declaration_accept (list _ _ (by omega) (by omega)) ends
  | function spelled kind opens parameters closes _ accepts block =>
      refine forall_budget fun budget enough => ?_
      have taken := parameters.length_le
      rw [List.length_cons] at taken
      simp only [List.length_cons] at enough
      rw [statement_function spelled]
      exact function_accept kind opens
        (enclosed_parameters parameters accepts closes (by omega))
        (block budget (by omega))
  | returnNothing spelled stops ends =>
      refine forall_budget fun budget enough => ?_
      rw [statement_return spelled]
      exact returning_nothing stops ends
  | returnValue spelled argument ends accepts =>
      refine forall_budget fun budget enough => ?_
      rw [List.length_cons] at enough
      rw [statement_return spelled]
      exact returning_value (argument.begins_first rfl)
        (accepts _ (by omega)) ends
  | ifThen spelled opens reading closes _ stops condition branch =>
      refine forall_budget fun budget enough => ?_
      have taken := reading.length_lt rfl
      rw [List.length_cons] at taken
      simp only [List.length_cons] at enough
      rw [statement_if spelled]
      exact conditional_then opens (condition _ (by omega)) closes
        (branch _ (by omega)) stops
  | ifElse spelled opens reading closes first elseSpelled _ condition branch
      other =>
      refine forall_budget fun budget enough => ?_
      have taken := reading.length_lt rfl
      have branchTaken := first.length_lt rfl
      rw [List.length_cons] at taken branchTaken
      simp only [List.length_cons] at enough
      rw [statement_if spelled]
      exact conditional_else opens (condition _ (by omega)) closes
        (branch _ (by omega)) elseSpelled (other _ (by omega))
  | loop spelled opens balanced closes _ repeated =>
      refine forall_budget fun budget enough => ?_
      simp only [List.length_cons, List.length_append] at enough
      rw [statement_loop spelled]
      exact loop_accept opens balanced closes (repeated _ (by omega)) (by omega)
  | blockStatement reading block =>
      refine forall_budget fun budget enough => ?_
      rw [statement_block (reading.begins_first rfl)]
      exact bind_of_accept (block budget enough)
  | expressionStatement notBlock reading ends content =>
      refine forall_budget fun budget enough => ?_
      rw [statement_expression notBlock (reading.begins_first rfl)]
      exact expressionStatement_accept (content _ (Nat.lt_succ_of_le enough)) ends
  | block opens _ closes list =>
      intro budget enough
      rw [List.length_cons] at enough
      refine block_accept opens (list ?_ _ _ (by omega) (by omega)) closes
      exact beq_iff_eq.mpr closes
  | noStatements =>
      intro seen budget rounds _ many
      exact itemsUntil_nil seen (Nat.zero_lt_of_lt many)
  | moreStatements reading _ head tail =>
      intro seen budget rounds enough many
      have taken := reading.length_lt rfl
      have opens := reading.begins_first rfl
      refine itemsUntil_cons (ne_nil_of_begins opens)
        (begins_disjoint not_rightBrace_of_opensStatement opens)
        (head budget enough) (tail seen budget (rounds - 1) (by omega) (by omega))
        (Nat.zero_lt_of_lt many)

/-- A budget that exceeds the number of tokens accepts exactly the readings. -/
theorem statement_eq_accept_iff {budget : Nat} {tokens rest : List Token}
    {content : Statement} (enough : tokens.length < budget) :
    statement budget tokens = .accept content rest ↔
      Reads (.statement content) tokens rest := by
  constructor
  · intro accepted
    exact statement_sound budget accepted
  · intro reading
    exact accepts_of_reads reading budget enough

/-! ### Whole programs -/

theorem items_cons (finish : Token) {budget : Nat}
    {tokens rest : List Token} {content : Statement} (remains : tokens ≠ [])
    (accepted : statement (budget + 1) tokens = .accept content rest) :
    items finish (budget + 1) tokens =
      .kept content :: items finish budget rest := by
  cases tokens with
  | nil => exact absurd rfl remains
  | cons token others => simp only [items, accepted]

theorem items_of_reads (finish : Token) {contents : List Statement}
    {budget : Nat} {tokens : List Token}
    (reading : Reads (.statements contents) tokens [])
    (enough : tokens.length < budget) :
    items finish budget tokens = contents.map .kept := by
  induction contents generalizing budget tokens with
  | nil =>
      cases reading
      cases budget <;> rfl
  | cons content others inductionHypothesis =>
      cases reading with
      | moreStatements head tail =>
          have remains := ne_nil_of_begins (head.begins_first rfl)
          have taken := head.length_lt rfl
          cases budget with
          | zero => exact absurd enough (Nat.not_lt_zero _)
          | succ budget =>
              have accepted := (statement_eq_accept_iff enough).mpr head
              rw [items_cons finish remains accepted,
                inductionHypothesis tail (by omega), List.map_cons]

theorem reads_of_items {finish : Token} {budget : Nat} {tokens : List Token}
    (enough : tokens.length ≤ budget)
    (clean : (items finish budget tokens).filterMap Item.diagnostic? = []) :
    Reads (.statements ((items finish budget tokens).filterMap Item.statement?))
      tokens [] := by
  induction budget generalizing tokens with
  | zero =>
      obtain rfl := List.eq_nil_of_length_eq_zero (Nat.le_zero.mp enough)
      exact .noStatements
  | succ budget inductionHypothesis =>
      cases tokens with
      | nil => exact .noStatements
      | cons token others =>
          cases reply : statement (budget + 1) (token :: others) with
          | reject problem rest =>
              simp [items, reply, Item.diagnostic?] at clean
          | accept content rest =>
              have head := statement_sound (budget + 1) reply
              have taken := head.length_lt rfl
              rw [items_cons finish (List.cons_ne_nil _ _) reply] at clean ⊢
              exact .moreStatements head (inductionHypothesis (by omega) clean)

end Grammar

open Grammar

/-- A token list is read without diagnostics exactly if all of it is a reading
of statements. -/
theorem parseTokens_eq_iff (all : List Token) (body : List Statement) :
    ((parseTokens all).diagnostics = [] ∧ (parseTokens all).program.body = body) ↔
      Reads (.statements body) (Token.Stream.ofTokens all).tokens [] := by
  constructor
  · rintro ⟨clean, rfl⟩
    exact reads_of_items (Nat.le_succ _) clean
  · intro reading
    have kept := items_of_reads (Token.Stream.ofTokens all).finish reading
      (Nat.lt_succ_self _)
    have parsed : parseTokens all = .ofItems (body.map .kept) :=
      congrArg Parsed.ofItems kept
    rw [parsed]
    constructor
    · simp [Parsed.ofItems, Item.diagnostic?]
    · rw [Parsed.ofItems, List.filterMap_map]
      exact List.filterMap_some

end ScriptAudit
