/-
Budgets do not show. With a budget that exceeds the number of tokens left, no loop
and no recursion of the grammar is cut short, and whatever has to have a token of
its own takes one off. So any two such budgets give the same reply, be it an
acceptance or a rejection, and the same items.
-/

import ScriptAudit.Proofs.Grammar.Completeness
import ScriptAudit.Proofs.Grammar.Recovery

namespace ScriptAudit.Grammar

namespace Production

/-- On these tokens no budget is spent, and what has to have a token takes one
off. -/
def Safe : {α : Type} → Production α → List Token → Prop
  | _, done _, _ => True
  | _, fail _, _ => True
  | _, exhausted, _ => False
  | _, peek, _ => True
  | _, advance, _ => True
  | _, delayed production, tokens => (production ()).Safe tokens
  | _, advancing production, tokens =>
      production.Safe tokens ∧ ∀ value rest,
        production tokens = .accept value rest → rest.length < tokens.length
  | _, andThen first next, tokens =>
      first.Safe tokens ∧ ∀ value rest,
        first tokens = .accept value rest → (next value).Safe rest

/-- The first production is safe on these tokens, and the second replies alike. -/
structure Matches {α : Type} (tokens : List Token)
    (first second : Production α) : Prop where
  safe : first.Safe tokens
  same : first tokens = second tokens

/-- The productions match on fewer than `size` tokens. -/
def Alike {α : Type} (size : Nat) (first second : Production α) : Prop :=
  ∀ tokens, tokens.length < size → Matches tokens first second

def Shrinks {α : Type} (production : Production α) : Prop :=
  ∀ tokens value rest, production tokens = .accept value rest →
    rest.length < tokens.length

theorem Shrinks.bind {α β : Type} {production : Production α}
    (shrinks : production.Shrinks) (next : α → Production β) :
    (production >>= next).Shrinks := by
  intro tokens value rest accepted
  obtain ⟨first, middle, read, continued⟩ := bind_eq_accept accepted
  exact Nat.lt_of_le_of_lt (suffix_of_accept continued).length_le
    (shrinks tokens first middle read)

theorem shrinks_expect (kind : Token.Kind) : (expect kind).Shrinks := by
  intro tokens token rest accepted
  obtain ⟨rfl, _⟩ := expect_eq_accept accepted
  exact Nat.lt_succ_self rest.length

section Sequences

variable {α β : Type} {size : Nat} {tokens : List Token}
  {first second : Production α} {next other : α → Production β}

theorem Matches.bind (matched : Matches tokens first second)
    (continued : ∀ value rest, first tokens = .accept value rest →
      Matches rest (next value) (other value)) :
    Matches tokens (first >>= next) (second >>= other) where
  safe := ⟨matched.safe, fun value rest accepted =>
    (continued value rest accepted).safe⟩
  same := by
    rw [bind_apply, bind_apply, ← matched.same]
    cases reply : first tokens with
    | reject problem rest => rfl
    | accept value rest => exact (continued value rest reply).same

theorem Matches.advancing (matched : Matches tokens first second)
    (shorter : ∀ value rest, first tokens = .accept value rest →
      rest.length < tokens.length) :
    Matches tokens (advancing first) (advancing second) :=
  ⟨⟨matched.safe, shorter⟩, matched.same⟩

namespace Alike

theorem none (first second : Production α) : Alike 0 first second :=
  fun _ impossible => absurd impossible (Nat.not_lt_zero _)

theorem refl (safe : ∀ tokens, first.Safe tokens) (size : Nat) :
    Alike size first first :=
  fun tokens _ => ⟨safe tokens, rfl⟩

theorem ofPure (value : α) (size : Nat) : Alike size (pure value) (pure value) :=
  fun _ _ => ⟨trivial, rfl⟩

theorem ofFail (problem : Problem) (size : Nat) :
    Alike size (fail problem : Production α) (fail problem) :=
  fun _ _ => ⟨trivial, rfl⟩

theorem mono {smaller : Nat} (alike : Alike size first second)
    (bound : smaller ≤ size) : Alike smaller first second :=
  fun tokens fewer => alike tokens (Nat.lt_of_lt_of_le fewer bound)

theorem bind (alike : Alike size first second)
    (continued : ∀ value, Alike size (next value) (other value)) :
    Alike size (first >>= next) (second >>= other) := by
  intro tokens fewer
  refine (alike tokens fewer).bind fun value rest accepted => ?_
  exact continued value rest
    (Nat.lt_of_le_of_lt (suffix_of_accept accepted).length_le fewer)

/-- After a production that takes a token off there are fewer left. -/
theorem bindShorter (alike : Alike (size + 1) first second)
    (shrinks : first.Shrinks)
    (continued : ∀ value, Alike size (next value) (other value)) :
    Alike (size + 1) (first >>= next) (second >>= other) := by
  intro tokens fewer
  refine (alike tokens fewer).bind fun value rest accepted => ?_
  have shorter := shrinks tokens value rest accepted
  exact continued value rest (by omega)

theorem pureAfter (alike : Alike size first second) (result : α → β) :
    Alike size (first >>= fun value => pure (result value))
      (second >>= fun value => pure (result value)) :=
  alike.bind fun value => ofPure (result value) size

theorem advancing (alike : Alike size first second) (shrinks : first.Shrinks) :
    Alike size (.advancing first) (.advancing second) :=
  fun tokens fewer => (alike tokens fewer).advancing (shrinks tokens)

theorem delayed {first second : Unit → Production α}
    (alike : Alike size (first ()) (second ())) :
    Alike size (.delayed first) (.delayed second) :=
  fun tokens fewer => ⟨(alike tokens fewer).safe, (alike tokens fewer).same⟩

end Alike

end Sequences

section SingleTokens

variable {α : Type} {size : Nat} {ended otherEnded : Production α}
  {found otherFound : Token → Production α} {token : Token} {rest : List Token}
  {next other : Unit → Production α}

theorem matches_onNext_cons
    (matched : Matches (token :: rest) (found token) (otherFound token)) :
    Matches (token :: rest) (onNext ended found) (onNext otherEnded otherFound) := by
  refine ⟨⟨trivial, ?_⟩, matched.same⟩
  rintro _ _ ⟨⟩
  exact matched.safe

theorem alike_onNext (endedAlike : Alike size ended otherEnded)
    (foundAlike : ∀ token rest, (token :: rest).length < size →
      Matches (token :: rest) (found token) (otherFound token)) :
    Alike size (onNext ended found) (onNext otherEnded otherFound) := by
  intro tokens fewer
  cases tokens with
  | cons token rest => exact matches_onNext_cons (foundAlike token rest fewer)
  | nil =>
      obtain ⟨safe, same⟩ := endedAlike [] fewer
      refine ⟨⟨trivial, ?_⟩, same⟩
      rintro _ _ ⟨⟩
      exact safe

theorem safe_onNext (endedSafe : ∀ tokens, ended.Safe tokens)
    (foundSafe : ∀ token tokens, (found token).Safe tokens) (tokens : List Token) :
    (onNext ended found).Safe tokens := by
  have alike := alike_onNext (.refl endedSafe (tokens.length + 1))
    fun token rest _ => ⟨foundSafe token (token :: rest), rfl⟩
  exact (alike tokens (Nat.lt_succ_self _)).safe

theorem safe_pure (value : α) (tokens : List Token) :
    (pure value : Production α).Safe tokens :=
  trivial

theorem safe_fail (problem : Problem) (tokens : List Token) :
    (fail problem : Production α).Safe tokens :=
  trivial

theorem safe_taking (value : α) (tokens : List Token) :
    (taking value).Safe tokens :=
  ⟨trivial, fun _ _ _ => trivial⟩

theorem safe_readIf (test : Token → Bool) (tokens : List Token) :
    (readIf test).Safe tokens := by
  refine safe_onNext (safe_pure _) (fun token tokens => ?_) tokens
  split
  · exact safe_taking _ tokens
  · exact trivial

theorem safe_expect (kind : Token.Kind) (tokens : List Token) :
    (expect kind).Safe tokens := by
  refine safe_onNext (safe_fail _) (fun token tokens => ?_) tokens
  split
  · exact safe_taking _ tokens
  · exact trivial

theorem safe_advance (tokens : List Token) : advance.Safe tokens :=
  trivial

theorem safe_sees (kind : Token.Kind) (tokens : List Token) :
    (sees kind).Safe tokens :=
  ⟨trivial, fun _ _ _ => trivial⟩

theorem safe_seesEnd (tokens : List Token) : seesEnd.Safe tokens :=
  ⟨trivial, fun _ _ _ => trivial⟩

theorem safe_skips (kind : Token.Kind) (tokens : List Token) :
    (skips kind).Safe tokens :=
  ⟨safe_readIf _ tokens, fun _ _ _ => trivial⟩

theorem Alike.behind (alike : Alike size (next ()) (other ()))
    (fewer : (token :: rest).length < size + 1) :
    Matches (token :: rest) (advance >>= next) (advance >>= other) := by
  obtain ⟨safe, same⟩ := alike rest (Nat.lt_of_succ_lt_succ fewer)
  refine ⟨⟨trivial, ?_⟩, same⟩
  rintro _ _ ⟨⟩
  exact safe

/-- What begins by reading a token has one of its own. -/
theorem Alike.led (alike : Alike size (next ()) (other ()))
    (fewer : (token :: rest).length < size + 1) :
    Matches (token :: rest) (.advancing (advance >>= next))
      (.advancing (advance >>= other)) := by
  apply (alike.behind fewer).advancing
  intro value left accepted
  exact Nat.lt_succ_of_le
    (suffix_of_accept (advance_bind_eq_accept accepted)).length_le

end SingleTokens

section Repetition

variable {α β : Type} {size budget otherBudget : Nat}

theorem alike_readIf {test : Token → Bool}
    {next other : Option Token → Production β}
    (missing : Alike (size + 1) (next none) (other none))
    (found : ∀ token, Alike size (next (some token)) (other (some token))) :
    Alike (size + 1) (readIf test >>= next) (readIf test >>= other) := by
  intro tokens fewer
  apply Matches.bind ⟨safe_readIf test tokens, rfl⟩
  intro value rest accepted
  rcases readIf_eq_accept accepted with ⟨rfl, rfl, _⟩ | ⟨token, rfl, rfl, _⟩
  · exact missing _ fewer
  · exact found token _ (Nat.lt_of_succ_lt_succ fewer)

theorem alike_skips {kind : Token.Kind} {next other : Bool → Production β}
    (absent : Alike (size + 1) (next false) (other false))
    (present : Alike size (next true) (other true)) :
    Alike (size + 1) (skips kind >>= next) (skips kind >>= other) := by
  intro tokens fewer
  apply Matches.bind ⟨safe_skips kind tokens, rfl⟩
  intro value rest accepted
  rcases skips_eq_accept accepted with ⟨rfl, rfl, _⟩ | ⟨token, rfl, rfl, _⟩
  · exact absent _ fewer
  · exact present _ (Nat.lt_of_succ_lt_succ fewer)

theorem forall_budgets {holds : Nat → Nat → Prop}
    (step : ∀ {budget otherBudget}, size ≤ budget → size ≤ otherBudget →
      holds (budget + 1) (otherBudget + 1))
    (enough : size < budget) (otherEnough : size < otherBudget) :
    holds budget otherBudget := by
  have both : ∀ budget, size < budget → ∀ otherBudget, size < otherBudget →
      holds budget otherBudget :=
    forall_budget fun _ bound => forall_budget fun _ => step bound
  exact both budget enough otherBudget otherEnough

theorem alike_extend {continues : Token → Bool}
    {step other : α → Token → Production α}
    (alike : ∀ value token, Alike size (step value token) (other value token))
    (enough : size ≤ budget) (otherEnough : size ≤ otherBudget) (value : α) :
    Alike size (extend continues step budget value)
      (extend continues other otherBudget value) := by
  induction size generalizing budget otherBudget value with
  | zero => exact .none _ _
  | succ size inductionHypothesis =>
      have shorter (value : α) (token : Token) :=
        (alike value token).mono (Nat.le_succ size)
      apply forall_budgets _ enough otherEnough
      intro budget otherBudget enough otherEnough
      refine alike_readIf (.ofPure _ _) fun token => ?_
      exact (shorter value token).bind
        (inductionHypothesis shorter enough otherEnough)

theorem alike_separated {item other : Production α}
    (alike : Alike size item other)
    (enough : size ≤ budget) (otherEnough : size ≤ otherBudget) :
    Alike size (separated item budget) (separated other otherBudget) := by
  induction size generalizing budget otherBudget with
  | zero => exact .none _ _
  | succ size inductionHypothesis =>
      apply forall_budgets _ enough otherEnough
      intro budget otherBudget enough otherEnough
      have later := inductionHypothesis (alike.mono (Nat.le_succ size)) enough
        otherEnough
      refine alike.bind fun first => ?_
      exact alike_skips (.ofPure _ _) (later.pureAfter _)

theorem alike_enclosed {item other : Production α}
    (alike : Alike size item other) (enough : size ≤ budget)
    (otherEnough : size ≤ otherBudget) (close : Token.Kind) :
    Alike size (enclosed budget close item)
      (enclosed otherBudget close other) := by
  have closed {first second : Production (List α)}
      (list : Alike size first second) :
      Alike size (first >>= fun items => expect close >>= fun _ => pure items)
        (second >>= fun items => expect close >>= fun _ => pure items) :=
    list.bind fun items => (Alike.refl (safe_expect close) size).pureAfter _
  refine (Alike.refl (safe_sees close) size).bind fun seen => ?_
  cases seen with
  | true => exact closed (.ofPure _ size)
  | false => exact closed (alike_separated alike enough otherEnough)

theorem alike_itemsUntil {item other : Production α}
    (alike : Alike size item other) (shrinks : item.Shrinks)
    (enough : size ≤ budget) (otherEnough : size ≤ otherBudget)
    (close : Token.Kind) :
    Alike size (itemsUntil close item budget)
      (itemsUntil close other otherBudget) := by
  induction size generalizing budget otherBudget with
  | zero => exact .none _ _
  | succ size inductionHypothesis =>
      apply forall_budgets _ enough otherEnough
      intro budget otherBudget enough otherEnough
      have later := inductionHypothesis (alike.mono (Nat.le_succ size)) enough
        otherEnough
      refine (Alike.refl (safe_sees close) _).bind fun seen => ?_
      refine (Alike.refl safe_seesEnd _).bind fun ended => ?_
      split
      · exact .ofPure _ _
      · exact alike.bindShorter shrinks fun first => later.pureAfter _

end Repetition

end Production

open Production

theorem shrinks_of_sound {α : Type} {production : Production α}
    {phrase : α → Phrase} {test : Token → Bool}
    (sound : production.Sound phrase)
    (first : ∀ value, (phrase value).first? = some test) :
    production.Shrinks :=
  fun _ value _ accepted => (sound accepted).length_lt (first value)

section Expressions

variable {size budget otherBudget : Nat} {nested other : Production Expr}

theorem safe_propertyKey (tokens : List Token) : propertyKey.Safe tokens := by
  refine safe_onNext (safe_fail _) (fun token tokens => ?_) tokens
  split
  · exact safe_taking _ tokens
  · exact safe_taking _ tokens
  · exact trivial

theorem alike_property (alike : Alike size nested other) :
    Alike size (property nested) (property other) := by
  refine (Alike.refl safe_propertyKey size).bind fun key => ?_
  refine (Alike.refl (safe_expect .colon) size).bind fun colon => ?_
  exact alike.pureAfter _

theorem alike_primary (alike : Alike size nested other)
    (sound : nested.Sound .expression)
    (enough : size ≤ budget) (otherEnough : size ≤ otherBudget) :
    Alike (size + 1) (primary budget nested) (primary otherBudget other) := by
  have shrinks : (primary budget nested).Shrinks :=
    shrinks_of_sound (primary_sound sound) fun _ => rfl
  refine Alike.advancing ?_ shrinks
  apply alike_onNext (.ofFail _ _)
  intro token rest fewer
  unfold primaryAt
  split
  · exact ⟨safe_taking _ _, rfl⟩
  · refine Alike.behind (alike.bind fun inner => ?_) fewer
    exact (Alike.refl (safe_expect .rightParen) size).pureAfter _
  · exact ((alike_enclosed alike enough otherEnough _).pureAfter _).led fewer
  · exact ((alike_enclosed (alike_property alike) enough otherEnough
      _).pureAfter _).led fewer
  · split
    · exact ⟨safe_taking _ _, rfl⟩
    · exact ⟨trivial, rfl⟩

theorem alike_access (alike : Alike size nested other)
    (enough : size ≤ budget) (otherEnough : size ≤ otherBudget)
    (target : Expr) (opening : Token) :
    Alike size (access budget nested target opening)
      (access otherBudget other target opening) := by
  unfold access
  split
  · exact (Alike.refl (safe_expect .identifier) size).pureAfter _
  · refine alike.bind fun index => ?_
    exact (Alike.refl (safe_expect .rightBracket) size).pureAfter _
  · exact (alike_enclosed alike enough otherEnough _).pureAfter _

theorem alike_updated (alike : Alike size nested other)
    (sound : nested.Sound .expression)
    (enough : size ≤ budget) (otherEnough : size ≤ otherBudget) :
    Alike (size + 1) (updated budget nested) (updated otherBudget other) := by
  have shrinks : (primary budget nested).Shrinks :=
    shrinks_of_sound (primary_sound sound) fun _ => rfl
  refine Alike.advancing ?_ (shrinks.bind _)
  -- The primary expression takes a token off, so the budget is left for the rest.
  refine (alike_primary alike sound enough otherEnough).bindShorter shrinks
    fun first => ?_
  refine (alike_extend (alike_access alike enough otherEnough) enough
    otherEnough first).bind fun operand => ?_
  refine (Alike.refl (safe_readIf _) size).bind fun found => ?_
  cases found with
  | none => exact .ofPure _ size
  | some token => exact .ofPure _ size

theorem alike_unary (alike : Alike size nested other)
    (sound : nested.Sound .updated)
    (enough : size ≤ budget) (otherEnough : size ≤ otherBudget) :
    Alike size (unary nested budget) (unary other otherBudget) := by
  induction size generalizing budget otherBudget with
  | zero => exact .none _ _
  | succ size inductionHypothesis =>
      apply forall_budgets _ enough otherEnough
      intro budget otherBudget enough otherEnough
      have inner := inductionHypothesis (alike.mono (Nat.le_succ size)) enough
        otherEnough
      have shrinks : (unary nested (budget + 1)).Shrinks :=
        shrinks_of_sound (unary_sound sound (budget + 1)) fun _ => rfl
      refine Alike.advancing ?_ shrinks
      apply alike_onNext alike
      intro token rest fewer
      split
      -- The operator takes a token off, so the smaller budget is enough behind it.
      · exact Alike.behind (inner.pureAfter _) fewer
      · exact alike (token :: rest) fewer

theorem alike_binary (alike : Alike (size + 1) nested other)
    (sound : nested.Sound .unary)
    (enough : size ≤ budget) (otherEnough : size ≤ otherBudget)
    (ladder : List Rank) :
    Alike (size + 1) (binary budget nested ladder)
      (binary otherBudget other ladder) := by
  induction ladder with
  | nil => exact alike
  | cons rank tighter inductionHypothesis =>
      have shrinks : (binary budget nested tighter).Shrinks :=
        shrinks_of_sound (binary_sound sound tighter) fun _ => rfl
      refine Alike.advancing ?_ (shrinks.bind _)
      refine inductionHypothesis.bindShorter shrinks fun first => ?_
      refine alike_extend (fun left operator => ?_) enough otherEnough first
      exact (inductionHypothesis.mono (Nat.le_succ size)).pureAfter _

theorem alike_assignment (alike : Alike size nested other)
    (sound : nested.Sound .expression)
    (enough : size ≤ budget) (otherEnough : size ≤ otherBudget) :
    Alike (size + 1) (assignment budget nested)
      (assignment otherBudget other) := by
  have operand := alike_unary (alike_updated alike sound enough otherEnough)
    (updated_sound sound) (Nat.succ_le_succ enough) (Nat.succ_le_succ otherEnough)
  have shrinks : (assignment budget nested).Shrinks :=
    shrinks_of_sound (assignment_sound sound) fun _ => rfl
  refine Alike.advancing ?_ shrinks
  refine (alike_binary operand (unary_sound (updated_sound sound) _) enough
    otherEnough ranks).bind fun target => ?_
  exact alike_readIf (.ofPure _ _) fun operator =>
    alike.pureAfter _

theorem alike_expression (enough : size ≤ budget)
    (otherEnough : size ≤ otherBudget) :
    Alike size (expression budget) (expression otherBudget) := by
  induction size generalizing budget otherBudget with
  | zero => exact .none _ _
  | succ size inductionHypothesis =>
      apply forall_budgets _ enough otherEnough
      intro budget otherBudget enough otherEnough
      exact .delayed (alike_assignment (inductionHypothesis enough otherEnough)
        (expression_sound budget) enough otherEnough)

end Expressions

section Statements

variable {size budget otherBudget : Nat} {nested other : Production Statement}

theorem alike_declarator (enough : size ≤ budget)
    (otherEnough : size ≤ otherBudget) :
    Alike size (declarator budget) (declarator otherBudget) := by
  have value := alike_expression enough otherEnough
  refine Alike.advancing ?_ ((shrinks_expect _).bind _)
  refine (Alike.refl (safe_expect .identifier) size).bind fun name => ?_
  refine (Alike.refl (safe_readIf _) size).bind fun found => ?_
  cases found with
  | none => exact (Alike.ofPure none size).pureAfter _
  | some equals => exact (value.pureAfter some).pureAfter _

theorem alike_semicolon {α : Type} (result : Bool → α) (size : Nat) :
    Alike size (skips .semicolon >>= fun skipped => pure (result skipped))
      (skips .semicolon >>= fun skipped => pure (result skipped)) :=
  (Alike.refl (safe_skips .semicolon) size).pureAfter result

theorem matches_declaration (enough : size ≤ budget)
    (otherEnough : size ≤ otherBudget) (keyword : Token) {rest : List Token}
    (fewer : (keyword :: rest).length < size + 1) :
    Matches (keyword :: rest) (declaration budget keyword)
      (declaration otherBudget keyword) := by
  apply Alike.led _ fewer
  refine (alike_separated (alike_declarator enough otherEnough) enough
    otherEnough).bind fun declarators => ?_
  exact alike_semicolon _ size

theorem matches_returning (enough : size ≤ budget)
    (otherEnough : size ≤ otherBudget) (keyword : Token) {rest : List Token}
    (fewer : (keyword :: rest).length < size + 1) :
    Matches (keyword :: rest) (returning budget keyword)
      (returning otherBudget keyword) := by
  have argument : Alike size (returnArgument budget)
      (returnArgument otherBudget) := by
    refine (Alike.refl (safe_sees .semicolon) size).bind fun _ => ?_
    refine (Alike.refl (safe_sees .rightBrace) size).bind fun _ => ?_
    refine (Alike.refl safe_seesEnd size).bind fun _ => ?_
    split
    · exact .ofPure _ size
    · exact (alike_expression enough otherEnough).pureAfter some
  apply Alike.led _ fewer
  refine argument.bind fun value => ?_
  exact alike_semicolon _ size

theorem alike_expressionStatement (enough : size ≤ budget)
    (otherEnough : size ≤ otherBudget) :
    Alike size (expressionStatement budget)
      (expressionStatement otherBudget) := by
  have shrinks : (expression budget).Shrinks :=
    shrinks_of_sound (expression_sound budget) fun _ => rfl
  refine Alike.advancing ?_ (shrinks.bind _)
  refine (alike_expression enough otherEnough).bind fun value => ?_
  exact alike_semicolon _ size

theorem alike_block (alike : Alike size nested other)
    (sound : nested.Sound .statement)
    (enough : size ≤ budget) (otherEnough : size ≤ otherBudget) :
    Alike (size + 1) (block budget nested) (block otherBudget other) := by
  refine Alike.advancing ?_ ((shrinks_expect _).bind _)
  refine (Alike.refl (safe_expect .leftBrace) _).bindShorter (shrinks_expect _)
    fun opening => ?_
  refine (alike_itemsUntil alike (shrinks_of_sound sound fun _ => rfl) enough
    otherEnough .rightBrace).bind fun body => ?_
  exact (Alike.refl (safe_expect .rightBrace) size).pureAfter _

theorem matches_function (alike : Alike size nested other)
    (sound : nested.Sound .statement)
    (enough : size ≤ budget) (otherEnough : size ≤ otherBudget)
    (keyword : Token) {rest : List Token}
    (fewer : (keyword :: rest).length < size + 1) :
    Matches (keyword :: rest) (function budget nested keyword)
      (function otherBudget other keyword) := by
  have body := (alike_block alike sound enough otherEnough).mono
    (Nat.le_succ size)
  apply Alike.led _ fewer
  refine (Alike.refl (safe_expect .identifier) size).bind fun name => ?_
  refine (Alike.refl (safe_expect .leftParen) size).bind fun opening => ?_
  refine (alike_enclosed (.refl (safe_expect .identifier) size) enough
    otherEnough .rightParen).bind fun parameters => ?_
  exact body.pureAfter _

theorem matches_conditional (alike : Alike size nested other)
    (enough : size ≤ budget) (otherEnough : size ≤ otherBudget)
    (keyword : Token) {rest : List Token}
    (fewer : (keyword :: rest).length < size + 1) :
    Matches (keyword :: rest) (conditional budget nested keyword)
      (conditional otherBudget other keyword) := by
  apply Alike.led _ fewer
  refine (Alike.refl (safe_expect .leftParen) size).bind fun opening => ?_
  refine (alike_expression enough otherEnough).bind fun test => ?_
  refine (Alike.refl (safe_expect .rightParen) size).bind fun closing => ?_
  refine alike.bind fun consequent => ?_
  refine (Alike.refl (safe_readIf _) size).bind fun found => ?_
  cases found with
  | none => exact .ofPure _ size
  | some otherwise => exact alike.pureAfter _

theorem alike_skipHeader (enough : size ≤ budget)
    (otherEnough : size ≤ otherBudget) (inner : Nat) :
    Alike size (skipHeader budget inner) (skipHeader otherBudget inner) := by
  induction size generalizing budget otherBudget inner with
  | zero => exact .none _ _
  | succ size inductionHypothesis =>
      apply forall_budgets _ enough otherEnough
      intro budget otherBudget enough otherEnough
      have onwards := inductionHypothesis enough otherEnough
      apply alike_onNext (.ofPure _ _)
      intro token rest fewer
      refine Alike.behind ?_ fewer
      split
      · exact onwards (inner + 1)
      split
      · split
        · exact .ofPure _ size
        · exact onwards (inner - 1)
      · exact onwards inner

theorem matches_loop (alike : Alike size nested other)
    (enough : size ≤ budget) (otherEnough : size ≤ otherBudget)
    (keyword : Token) {rest : List Token}
    (fewer : (keyword :: rest).length < size + 1) :
    Matches (keyword :: rest) (loop budget nested keyword)
      (loop otherBudget other keyword) := by
  apply Alike.led _ fewer
  refine (Alike.refl (safe_expect .leftParen) size).bind fun opening => ?_
  refine (alike_skipHeader enough otherEnough 0).bind fun _ => ?_
  exact alike.pureAfter _

theorem alike_anyStatement (alike : Alike size nested other)
    (sound : nested.Sound .statement)
    (enough : size < budget) (otherEnough : size < otherBudget) :
    Alike (size + 1) (anyStatement budget nested)
      (anyStatement otherBudget other) := by
  have bound := Nat.le_of_lt enough
  have otherBound := Nat.le_of_lt otherEnough
  have simple := alike_expressionStatement enough otherEnough
  have shrinks : (anyStatement budget nested).Shrinks :=
    shrinks_of_sound (anyStatement_sound sound) fun _ => rfl
  refine Alike.advancing ?_ shrinks
  apply alike_onNext simple
  intro token rest fewer
  unfold statementAt
  split
  · exact matches_declaration bound otherBound token fewer
  split
  · exact matches_function alike sound bound otherBound token fewer
  split
  · exact matches_returning bound otherBound token fewer
  split
  · exact matches_conditional alike bound otherBound token fewer
  split
  · exact matches_loop alike bound otherBound token fewer
  split
  · exact (alike_block alike sound bound otherBound).pureAfter _
      (token :: rest) fewer
  · exact simple (token :: rest) fewer

theorem alike_statement (enough : size ≤ budget)
    (otherEnough : size ≤ otherBudget) :
    Alike size (statement budget) (statement otherBudget) := by
  induction size generalizing budget otherBudget with
  | zero => exact .none _ _
  | succ size inductionHypothesis =>
      apply forall_budgets _ enough otherEnough
      intro budget otherBudget enough otherEnough
      exact .delayed (alike_anyStatement (inductionHypothesis enough otherEnough)
        (statement_sound budget) (Nat.lt_succ_of_le enough)
        (Nat.lt_succ_of_le otherEnough))

end Statements

/-! ### Items -/

theorem alike_skipStatement {size budget otherBudget : Nat}
    (enough : size ≤ budget) (otherEnough : size ≤ otherBudget) :
    Alike size (skipStatement budget) (skipStatement otherBudget) := by
  induction size generalizing budget otherBudget with
  | zero => exact .none _ _
  | succ size inductionHypothesis =>
      apply forall_budgets _ enough otherEnough
      intro budget otherBudget enough otherEnough
      have onwards := inductionHypothesis enough otherEnough
      apply alike_onNext (.ofPure _ _)
      intro token rest fewer
      split
      · exact ⟨trivial, rfl⟩
      split
      · exact ⟨trivial, rfl⟩
      · exact Alike.behind onwards fewer

theorem alike_synchronize {size budget otherBudget : Nat}
    (enough : size ≤ budget) (otherEnough : size ≤ otherBudget) :
    Alike size (synchronize budget) (synchronize otherBudget) :=
  (Alike.refl safe_advance size).bind fun _ =>
    alike_skipStatement enough otherEnough

/-- Budgets that exceed the number of tokens give the same items. -/
theorem items_budget (finish : Token) {budget otherBudget : Nat}
    {tokens : List Token} (enough : tokens.length < budget)
    (otherEnough : tokens.length < otherBudget) :
    items finish budget tokens = items finish otherBudget tokens := by
  induction budget generalizing otherBudget tokens with
  | zero => exact absurd enough (Nat.not_lt_zero _)
  | succ budget inductionHypothesis =>
      cases otherBudget with
      | zero => exact absurd otherEnough (Nat.not_lt_zero _)
      | succ otherBudget =>
          cases tokens with
          | nil => rfl
          | cons token others =>
              have same := (alike_statement enough otherEnough (token :: others)
                (Nat.lt_succ_self _)).same
              simp only [items, ← same]
              cases reply : statement (budget + 1) (token :: others) with
              | accept content rest =>
                  have taken := (statement_sound _ reply).length_lt rfl
                  exact congrArg _ (inductionHypothesis (by omega) (by omega))
              | reject problem rest =>
                  have bound := (suffix_of_reject reply).length_le
                  have resumed := (alike_synchronize enough otherEnough rest
                    (Nat.lt_succ_of_le bound)).same
                  have shorter := length_synchronize_lt (budget + 1) bound
                    (Nat.zero_lt_succ _)
                  simp only [← resumed]
                  exact congrArg _ (inductionHypothesis (by omega) (by omega))

end ScriptAudit.Grammar
