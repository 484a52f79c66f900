/-
Soundness: whatever a production accepts is a reading, with any budget.

The replies of the combinators are inverted once; each production then follows
its own definition, with the soundness of the nested production as a hypothesis,
and an induction on the budget ties the grammar together. What holds of every
production is proved by induction on how it is put together.
-/

import ScriptAudit.Proofs.Grammar.Reading

namespace ScriptAudit.Grammar

/-- Nothing is put back, reordered or invented, and a rejection happens at a token
of the list or at its end. -/
theorem Production.confined {α : Type} (production : Production α)
    (tokens : List Token) : (production tokens).rest <:+ tokens := by
  induction production generalizing tokens with
  | done value | fail problem | exhausted | peek => exact List.suffix_refl tokens
  | advance => exact List.tail_suffix tokens
  | delayed production inductionHypothesis => exact inductionHypothesis () tokens
  | advancing production inductionHypothesis => exact inductionHypothesis tokens
  | andThen first next firstConfined nextConfined =>
      have bound := firstConfined tokens
      rw [reply]
      cases replied : first tokens with
      | reject problem rest =>
          rw [replied] at bound
          exact bound
      | accept value rest =>
          rw [replied] at bound
          exact (nextConfined value rest).trans bound

theorem Production.suffix_of_accept {α : Type} {production : Production α}
    {value : α} {tokens rest : List Token}
    (accepted : production tokens = .accept value rest) : rest <:+ tokens := by
  have within := production.confined tokens
  rwa [accepted] at within

theorem Production.suffix_of_reject {α : Type} {production : Production α}
    {problem : Problem} {tokens rest : List Token}
    (rejected : production tokens = .reject problem rest) : rest <:+ tokens := by
  have within := production.confined tokens
  rwa [rejected] at within

theorem Reply.bind_eq_accept {α β : Type} {reply : Reply α}
    {next : α → List Token → Reply β} {value : β} {rest : List Token}
    (accepted : reply.bind next = .accept value rest) :
    ∃ first middle, reply = .accept first middle ∧
      next first middle = .accept value rest := by
  cases reply with
  | accept first middle => exact ⟨first, middle, rfl, accepted⟩
  | reject problem middle => cases accepted

namespace Production

theorem bind_eq_accept {α β : Type} {production : Production α}
    {next : α → Production β} {value : β} {tokens rest : List Token}
    (accepted : (production >>= next) tokens = .accept value rest) :
    ∃ first middle, production tokens = .accept first middle ∧
      next first middle = .accept value rest :=
  Reply.bind_eq_accept accepted

theorem advance_bind_eq_accept {α : Type} {next : Unit → Production α} {value : α}
    {token : Token} {tokens rest : List Token}
    (accepted : (advance >>= next) (token :: tokens) = .accept value rest) :
    next () tokens = .accept value rest :=
  accepted

theorem expect_eq_accept {kind : Token.Kind} {token : Token}
    {tokens rest : List Token}
    (accepted : expect kind tokens = .accept token rest) :
    tokens = token :: rest ∧ token.kind = kind := by
  cases tokens with
  | nil => cases accepted
  | cons first others =>
      rw [expect, onNext_cons] at accepted
      split at accepted
      · rename_i same
        cases accepted
        exact ⟨rfl, same⟩
      · cases accepted

theorem expect_bind_eq_accept {α : Type} {kind : Token.Kind}
    {next : Token → Production α} {value : α} {tokens rest : List Token}
    (accepted : (expect kind >>= next) tokens = .accept value rest) :
    ∃ token middle, tokens = token :: middle ∧ token.kind = kind ∧
      next token middle = .accept value rest := by
  obtain ⟨token, middle, expected, continued⟩ := bind_eq_accept accepted
  obtain ⟨same, tokenKind⟩ := expect_eq_accept expected
  exact ⟨token, middle, same, tokenKind, continued⟩

theorem readIf_eq_accept {test : Token → Bool} {found : Option Token}
    {tokens rest : List Token}
    (accepted : readIf test tokens = .accept found rest) :
    (found = none ∧ tokens = rest ∧ begins test rest = false) ∨
      ∃ token, found = some token ∧ tokens = token :: rest ∧
        test token = true := by
  cases tokens with
  | nil =>
      cases accepted
      exact .inl ⟨rfl, rfl, rfl⟩
  | cons first others =>
      rw [readIf, onNext_cons] at accepted
      split at accepted
      · rename_i passes
        cases accepted
        exact .inr ⟨first, rfl, rfl, passes⟩
      · rename_i fails
        cases accepted
        exact .inl ⟨rfl, rfl, by simpa using fails⟩

theorem skips_eq_accept {kind : Token.Kind} {skipped : Bool}
    {tokens rest : List Token}
    (accepted : skips kind tokens = .accept skipped rest) :
    (skipped = false ∧ tokens = rest ∧
        begins (fun token => token.kind == kind) rest = false) ∨
      ∃ token, skipped = true ∧ tokens = token :: rest ∧
        token.kind = kind := by
  obtain ⟨found, middle, read, returned⟩ := bind_eq_accept accepted
  cases returned
  rcases readIf_eq_accept read with ⟨rfl, same, stops⟩ | ⟨token, rfl, same, kind⟩
  · exact .inl ⟨rfl, same, stops⟩
  · exact .inr ⟨token, rfl, same, eq_of_beq kind⟩

theorem extend_eq_accept {α : Type} {continues : Token → Bool}
    {step : α → Token → Production α} (reached : α → List Token → Prop)
    (stepReached : ∀ {value token middle extended rest},
      reached value (token :: middle) → continues token = true →
        step value token middle = .accept extended rest → reached extended rest)
    {budget : Nat} {value result : α} {tokens rest : List Token}
    (start : reached value tokens)
    (accepted : extend continues step budget value tokens =
      .accept result rest) :
    reached result rest ∧ begins continues rest = false := by
  induction budget generalizing value tokens with
  | zero => cases accepted
  | succ budget inductionHypothesis =>
      obtain ⟨found, middle, read, continued⟩ := bind_eq_accept accepted
      rcases readIf_eq_accept read with ⟨rfl, rfl, stops⟩ | ⟨token, rfl, rfl, passes⟩
      · cases continued
        exact ⟨start, stops⟩
      · obtain ⟨extended, after, stepped, onwards⟩ := bind_eq_accept continued
        exact inductionHypothesis (stepReached start passes stepped) onwards

structure Listing {α : Type} (each : α → List Token → List Token → Prop)
    (all : List α → List Token → List Token → Prop) : Prop where
  one : ∀ {value tokens rest}, each value tokens rest →
    begins isComma rest = false → all [value] tokens rest
  more : ∀ {value next others comma tokens middle rest},
    each value tokens (comma :: middle) → comma.kind = .comma →
      all (next :: others) middle rest → all (value :: next :: others) tokens rest

theorem separated_eq_accept {α : Type} {item : Production α}
    {each : α → List Token → List Token → Prop}
    {all : List α → List Token → List Token → Prop} (listing : Listing each all)
    (sound : ∀ {tokens value rest}, item tokens = .accept value rest →
      each value tokens rest)
    {budget : Nat} {values : List α} {tokens rest : List Token}
    (accepted : separated item budget tokens = .accept values rest) :
    values ≠ [] ∧ all values tokens rest := by
  induction budget generalizing values tokens with
  | zero => cases accepted
  | succ budget inductionHypothesis =>
      obtain ⟨first, middle, read, continued⟩ := bind_eq_accept accepted
      obtain ⟨skipped, after, skip, onwards⟩ := bind_eq_accept continued
      rcases skips_eq_accept skip with ⟨rfl, rfl, stops⟩ | ⟨comma, rfl, rfl, kind⟩
      · cases onwards
        exact ⟨List.cons_ne_nil _ _, listing.one (sound read) stops⟩
      · obtain ⟨others, final, tail, returned⟩ := bind_eq_accept onwards
        cases returned
        obtain ⟨nonempty, reading⟩ := inductionHypothesis tail
        obtain ⟨next, others, rfl⟩ := List.exists_cons_of_ne_nil nonempty
        exact ⟨List.cons_ne_nil _ _, listing.more (sound read) kind reading⟩

theorem enclosed_eq_accept {α : Type} {item : Production α}
    {each : α → List Token → List Token → Prop}
    {all : List α → List Token → List Token → Prop} (listing : Listing each all)
    (empty : ∀ rest, all [] rest rest)
    (sound : ∀ {tokens value rest}, item tokens = .accept value rest →
      each value tokens rest)
    {budget : Nat} {close : Token.Kind} {values : List α}
    {tokens rest : List Token}
    (accepted : enclosed budget close item tokens = .accept values rest) :
    ∃ closing, all values tokens (closing :: rest) ∧ closing.kind = close := by
  obtain ⟨seen, start, see, continued⟩ := bind_eq_accept accepted
  cases see
  have closed : ∃ items middle, all items tokens middle ∧
      (expect close >>= fun _ => pure items) middle = .accept values rest := by
    dsimp only at continued
    split at continued
    · exact ⟨[], tokens, empty tokens, continued⟩
    · obtain ⟨items, middle, list, finish⟩ := bind_eq_accept continued
      exact ⟨items, middle, (separated_eq_accept listing sound list).2, finish⟩
  obtain ⟨items, middle, reading, finish⟩ := closed
  obtain ⟨closing, after, rfl, kind, returned⟩ := expect_bind_eq_accept finish
  cases returned
  exact ⟨closing, reading, kind⟩

theorem itemsUntil_eq_accept {α : Type} {item : Production α}
    (all : List α → List Token → List Token → Prop)
    (empty : ∀ rest, all [] rest rest)
    (more : ∀ {value others tokens middle rest},
      item tokens = .accept value middle → all others middle rest →
        all (value :: others) tokens rest)
    {close : Token.Kind} {budget : Nat} {values : List α}
    {tokens rest : List Token}
    (accepted : itemsUntil close item budget tokens = .accept values rest) :
    all values tokens rest := by
  induction budget generalizing values tokens with
  | zero => cases accepted
  | succ budget inductionHypothesis =>
      obtain ⟨seen, start, see, continued⟩ := bind_eq_accept accepted
      cases see
      obtain ⟨ended, start, see, onwards⟩ := bind_eq_accept continued
      cases see
      split at onwards
      · cases onwards
        exact empty _
      · obtain ⟨first, middle, read, others⟩ := bind_eq_accept onwards
        obtain ⟨others, final, tail, returned⟩ := bind_eq_accept others
        cases returned
        exact more read (inductionHypothesis tail)

end Production

open Production

/-- Whatever the production accepts is a reading of its phrase. -/
def Production.Sound {α : Type} (production : Production α)
    (phrase : α → Phrase) : Prop :=
  ∀ {tokens value rest}, production tokens = .accept value rest →
    Reads (phrase value) tokens rest

section Expressions

variable {budget : Nat} {nested : Production Expr}

theorem expressionListing :
    Listing (fun value => Reads (.expression value))
      (fun values => Reads (.expressions values)) :=
  { one := .oneExpression
    more := .moreExpressions }

theorem propertyListing :
    Listing (fun entry => Reads (.property entry))
      (fun entries => Reads (.properties entries)) :=
  { one := .oneProperty
    more := .moreProperties }

theorem property_sound (nestedSound : nested.Sound .expression) :
    (property nested).Sound .property := by
  intro tokens entry rest accepted
  obtain ⟨key, middle, keyRead, continued⟩ := bind_eq_accept accepted
  obtain ⟨colon, after, rfl, colonKind, onwards⟩ :=
    expect_bind_eq_accept continued
  obtain ⟨value, final, valueRead, returned⟩ := bind_eq_accept onwards
  cases returned
  have content := nestedSound valueRead
  cases tokens with
  | nil => cases keyRead
  | cons token others =>
      rw [propertyKey, onNext_cons] at keyRead
      split at keyRead
      · rename_i kind
        cases keyRead
        exact .namedProperty kind colonKind content
      · rename_i literal kind writes
        cases keyRead
        have content := Reads.quotedProperty kind writes colonKind content
        rw [← position_of_literal? writes] at content
        exact content
      · cases keyRead

theorem primary_sound (nestedSound : nested.Sound .expression) :
    (primary budget nested).Sound .primary := by
  intro tokens value rest accepted
  cases tokens with
  | nil => cases accepted
  | cons token others =>
      rw [primary, advancing_apply, onNext_cons, primaryAt] at accepted
      split at accepted
      · rename_i kind
        cases accepted
        exact .identifier kind
      · rename_i kind
        obtain ⟨inner, middle, read, continued⟩ :=
          bind_eq_accept (advance_bind_eq_accept accepted)
        obtain ⟨closing, after, rfl, closes, returned⟩ :=
          expect_bind_eq_accept continued
        cases returned
        exact .parenthesized kind (nestedSound read) closes
      · rename_i kind
        obtain ⟨values, middle, list, returned⟩ :=
          bind_eq_accept (advance_bind_eq_accept accepted)
        cases returned
        obtain ⟨closing, elements, closes⟩ := enclosed_eq_accept
          expressionListing (fun _ => .noExpressions) nestedSound list
        exact .array kind elements closes
      · rename_i kind
        obtain ⟨entries, middle, list, returned⟩ :=
          bind_eq_accept (advance_bind_eq_accept accepted)
        cases returned
        obtain ⟨closing, properties, closes⟩ := enclosed_eq_accept
          propertyListing (fun _ => .noProperties)
          (property_sound nestedSound) list
        exact .object kind properties closes
      · split at accepted
        · rename_i writes
          cases accepted
          exact .literal writes
        · cases accepted

theorem access_sound (nestedSound : nested.Sound .expression)
    {tokens middle rest : List Token} {target result : Expr} {opening : Token}
    (object : Reads (.accessed target) tokens (opening :: middle))
    (opens : opensAccess opening = true)
    (accepted : access budget nested target opening middle =
      .accept result rest) :
    Reads (.accessed result) tokens rest := by
  simp only [opensAccess, Bool.or_eq_true, beq_iff_eq] at opens
  rcases opens with (kind | kind) | kind
  · simp only [access, kind] at accepted
    obtain ⟨name, after, rfl, nameKind, returned⟩ :=
      expect_bind_eq_accept accepted
    cases returned
    exact .member object kind nameKind
  · simp only [access, kind] at accepted
    obtain ⟨index, after, read, continued⟩ := bind_eq_accept accepted
    obtain ⟨closing, final, rfl, closes, returned⟩ :=
      expect_bind_eq_accept continued
    cases returned
    exact .index object kind (nestedSound read) closes
  · simp only [access, kind] at accepted
    obtain ⟨values, after, list, returned⟩ := bind_eq_accept accepted
    cases returned
    obtain ⟨closing, arguments, closes⟩ := enclosed_eq_accept
      expressionListing (fun _ => .noExpressions) nestedSound list
    exact .call object kind arguments closes

theorem updated_sound (nestedSound : nested.Sound .expression) :
    (updated budget nested).Sound .updated := by
  intro tokens value rest accepted
  obtain ⟨first, middle, read, continued⟩ := bind_eq_accept accepted
  obtain ⟨operand, after, extended, onwards⟩ := bind_eq_accept continued
  obtain ⟨accessed, noAccess⟩ := extend_eq_accept
    (fun value => Reads (.accessed value) tokens)
    (access_sound nestedSound) (.bare (primary_sound nestedSound read)) extended
  obtain ⟨found, final, read, returned⟩ := bind_eq_accept onwards
  rcases readIf_eq_accept read with
    ⟨rfl, rfl, noUpdate⟩ | ⟨operator, rfl, rfl, updates⟩
  · cases returned
    exact .settled accessed noAccess noUpdate
  · cases returned
    exact .update accessed updates

theorem unary_sound {operand : Production Expr}
    (operandSound : operand.Sound .updated) (budget : Nat) :
    (unary operand budget).Sound .unary := by
  induction budget with
  | zero =>
      intro tokens value rest accepted
      cases accepted
  | succ budget inductionHypothesis =>
      intro tokens value rest accepted
      cases tokens with
      | nil => exact .operand (operandSound accepted)
      | cons token others =>
          rw [unary, advancing_apply, onNext_cons] at accepted
          split at accepted
          · rename_i kind
            obtain ⟨inner, middle, read, returned⟩ :=
              bind_eq_accept (advance_bind_eq_accept accepted)
            cases returned
            exact .operator kind (inductionHypothesis read)
          · exact .operand (operandSound accepted)

theorem binary_sound {operand : Production Expr}
    (operandSound : operand.Sound .unary) (ladder : List Rank) :
    (binary budget operand ladder).Sound (.binary ladder) := by
  induction ladder with
  | nil =>
      intro tokens value rest accepted
      exact .innermost (operandSound accepted)
  | cons rank tighter inductionHypothesis =>
      intro tokens value rest accepted
      obtain ⟨first, middle, read, extended⟩ := bind_eq_accept accepted
      obtain ⟨chain, stops⟩ := extend_eq_accept
        (fun value => Reads (.chain rank tighter value) tokens)
        (by
          intro left operator middle result rest chain admitted joined
          obtain ⟨right, after, read, returned⟩ := bind_eq_accept joined
          cases returned
          exact .join chain admitted (inductionHypothesis read))
        (.first (inductionHypothesis read)) extended
      exact .rank chain stops

theorem assignment_sound (nestedSound : nested.Sound .expression) :
    (assignment budget nested).Sound .expression := by
  intro tokens value rest accepted
  obtain ⟨target, middle, read, continued⟩ := bind_eq_accept accepted
  have ladder := binary_sound (unary_sound (updated_sound nestedSound) _) ranks read
  obtain ⟨found, after, read, onwards⟩ := bind_eq_accept continued
  rcases readIf_eq_accept read with
    ⟨rfl, rfl, stops⟩ | ⟨operator, rfl, rfl, kind⟩
  · cases onwards
    exact .simple ladder stops
  · obtain ⟨value, final, read, returned⟩ := bind_eq_accept onwards
    cases returned
    exact .assignment ladder (eq_of_beq kind) (nestedSound read)

theorem expression_sound (budget : Nat) :
    (expression budget).Sound .expression := by
  induction budget with
  | zero =>
      intro tokens value rest accepted
      cases accepted
  | succ budget inductionHypothesis => exact assignment_sound inductionHypothesis

end Expressions

section Statements

variable {budget : Nat} {nested : Production Statement}

theorem declaratorListing :
    Listing (fun content => Reads (.declarator content))
      (fun contents => Reads (.declarators contents)) :=
  { one := .oneDeclarator
    more := .moreDeclarators }

theorem parameterListing :
    Listing (fun name tokens rest => tokens = name :: rest ∧ name.kind = .identifier)
      (fun names => Reads (.parameters names)) :=
  { one := by
      rintro name tokens rest ⟨rfl, kind⟩ stops
      exact .oneParameter kind stops
    more := by
      rintro name next others comma tokens middle rest ⟨rfl, kind⟩ commaKind tail
      exact .moreParameters kind commaKind tail }

theorem skips_semicolon {skipped : Bool} {tokens rest : List Token}
    (accepted : skips .semicolon tokens = .accept skipped rest) :
    Terminates tokens rest := by
  rcases skips_eq_accept accepted with
    ⟨_, rfl, stops⟩ | ⟨mark, _, rfl, kind⟩
  · exact .absent stops
  · exact .semicolon kind

theorem declarator_sound : (declarator budget).Sound .declarator := by
  intro tokens content rest accepted
  obtain ⟨name, middle, rfl, kind, continued⟩ := expect_bind_eq_accept accepted
  obtain ⟨found, after, read, onwards⟩ := bind_eq_accept continued
  rcases readIf_eq_accept read with
    ⟨rfl, rfl, stops⟩ | ⟨equals, rfl, rfl, spelled⟩
  · cases onwards
    exact .declared kind stops
  · obtain ⟨init, final, read, returned⟩ := bind_eq_accept onwards
    cases returned
    obtain ⟨value, last, read, returned⟩ := bind_eq_accept read
    cases returned
    exact .initialized kind spelled (expression_sound budget read)

theorem declaration_sound {keyword : Token}
    (spelled : keyword.isSpelled .keyword ["var", "let", "const"] = true)
    {tokens rest : List Token} {content : Statement}
    (accepted : declaration budget keyword (keyword :: tokens) =
      .accept content rest) :
    Reads (.statement content) (keyword :: tokens) rest := by
  obtain ⟨contents, middle, list, continued⟩ :=
    bind_eq_accept (advance_bind_eq_accept accepted)
  obtain ⟨skipped, after, skip, returned⟩ := bind_eq_accept continued
  cases returned
  exact .declaration spelled
    (separated_eq_accept declaratorListing declarator_sound list).2
    (skips_semicolon skip)

theorem block_sound (nestedSound : nested.Sound .statement) :
    (block budget nested).Sound fun content => .block content.1 content.2 := by
  intro tokens content rest accepted
  obtain ⟨opening, middle, rfl, opens, continued⟩ :=
    expect_bind_eq_accept accepted
  obtain ⟨body, after, list, onwards⟩ := bind_eq_accept continued
  obtain ⟨closing, final, rfl, closes, returned⟩ :=
    expect_bind_eq_accept onwards
  cases returned
  have statements := itemsUntil_eq_accept
    (fun contents => Reads (.statements contents))
    (fun _ => .noStatements)
    (fun read tail => .moreStatements (nestedSound read) tail) list
  exact .block opens statements closes

theorem function_sound (nestedSound : nested.Sound .statement) {keyword : Token}
    (spelled : keyword.isSpelled .keyword ["function"] = true)
    {tokens rest : List Token} {content : Statement}
    (accepted : function budget nested keyword (keyword :: tokens) =
      .accept content rest) :
    Reads (.statement content) (keyword :: tokens) rest := by
  obtain ⟨name, middle, rfl, kind, continued⟩ :=
    expect_bind_eq_accept (advance_bind_eq_accept accepted)
  obtain ⟨opening, inner, rfl, opens, continued⟩ :=
    expect_bind_eq_accept continued
  obtain ⟨names, outer, list, continued⟩ := bind_eq_accept continued
  obtain ⟨closing, parameters, closes⟩ := enclosed_eq_accept
    parameterListing (fun _ => .noParameters) expect_eq_accept list
  obtain ⟨⟨body, bodyPosition⟩, after, read, returned⟩ :=
    bind_eq_accept continued
  cases returned
  exact .function spelled kind opens parameters closes
    (block_sound nestedSound read)

theorem returnArgument_apply (budget : Nat) (tokens : List Token) :
    returnArgument budget tokens =
      if tokens = [] ∨ begins endsReturn tokens = true then .accept none tokens
      else (some <$> expression budget) tokens := by
  cases tokens with
  | nil => rfl
  | cons token others =>
      show (if (endsReturn token || false) = true then pure none
        else some <$> expression budget : Production (Option Expr)) _ = _
      cases ends : endsReturn token <;> simp [ends]

theorem returning_sound {keyword : Token}
    (spelled : keyword.isSpelled .keyword ["return"] = true)
    {tokens rest : List Token} {content : Statement}
    (accepted : returning budget keyword (keyword :: tokens) =
      .accept content rest) :
    Reads (.statement content) (keyword :: tokens) rest := by
  obtain ⟨argument, middle, read, continued⟩ :=
    bind_eq_accept (advance_bind_eq_accept accepted)
  obtain ⟨skipped, after, skip, returned⟩ := bind_eq_accept continued
  cases returned
  have ends := skips_semicolon skip
  rw [returnArgument_apply] at read
  split at read
  · rename_i stops
    cases read
    exact .returnNothing spelled stops ends
  · obtain ⟨value, last, read, returned⟩ := bind_eq_accept read
    cases returned
    exact .returnValue spelled (expression_sound budget read) ends

theorem conditional_sound (nestedSound : nested.Sound .statement)
    {keyword : Token} (spelled : keyword.isSpelled .keyword ["if"] = true)
    {tokens rest : List Token} {content : Statement}
    (accepted : conditional budget nested keyword (keyword :: tokens) =
      .accept content rest) :
    Reads (.statement content) (keyword :: tokens) rest := by
  obtain ⟨opening, inner, rfl, opens, continued⟩ :=
    expect_bind_eq_accept (advance_bind_eq_accept accepted)
  obtain ⟨test, middle, condition, continued⟩ := bind_eq_accept continued
  obtain ⟨closing, front, rfl, closes, continued⟩ :=
    expect_bind_eq_accept continued
  obtain ⟨consequent, after, branch, continued⟩ := bind_eq_accept continued
  obtain ⟨found, back, read, onwards⟩ := bind_eq_accept continued
  rcases readIf_eq_accept read with
    ⟨rfl, rfl, stops⟩ | ⟨otherwise, rfl, rfl, elseSpelled⟩
  · cases onwards
    exact .ifThen spelled opens (expression_sound budget condition) closes
      (nestedSound branch) stops
  · obtain ⟨alternate, final, other, returned⟩ := bind_eq_accept onwards
    cases returned
    exact .ifElse spelled opens (expression_sound budget condition) closes
      (nestedSound branch) elseSpelled (nestedSound other)

/-- A run of tokens that closes so many parentheses opened before it. -/
def Closes : Nat → List Token → Prop
  | 0, tokens => Balanced tokens
  | opened + 1, tokens =>
      ∃ inner closing outer, tokens = inner ++ closing :: outer ∧
        Balanced inner ∧ closing.kind = .rightParen ∧ Closes opened outer

theorem Closes.append {opened : Nat} {front tokens : List Token}
    (grows : ∀ {rest}, Balanced rest → Balanced (front ++ rest))
    (closes : Closes opened tokens) : Closes opened (front ++ tokens) := by
  cases opened with
  | zero => exact grows closes
  | succ opened =>
      obtain ⟨inner, closing, outer, rfl, balanced, kind, closes⟩ := closes
      exact ⟨front ++ inner, closing, outer, by simp, grows balanced, kind,
        closes⟩

theorem closes_of_skipHeader {budget opened : Nat} {tokens rest : List Token}
    (accepted : skipHeader budget opened tokens = .accept () rest)
    (remains : rest ≠ []) :
    ∃ header closing, tokens = header ++ closing :: rest ∧
      closing.kind = .rightParen ∧ Closes opened header := by
  induction budget generalizing opened tokens with
  | zero => cases accepted
  | succ budget inductionHypothesis =>
      cases tokens with
      | nil =>
          cases accepted
          exact absurd rfl remains
      | cons token others =>
          rw [skipHeader, onNext_cons] at accepted
          replace accepted := advance_bind_eq_accept accepted
          split at accepted
          · rename_i opens
            -- The group that opens here is closed first and is balanced by itself.
            obtain ⟨header, closing, rfl, kind, inner, close, outer, rfl, balanced,
              closeKind, closes⟩ := inductionHypothesis accepted
            refine ⟨(token :: inner ++ [close]) ++ outer, closing, by simp, kind, ?_⟩
            refine closes.append fun tail => ?_
            simpa using Balanced.group opens closeKind balanced tail
          · rename_i notOpening
            split at accepted
            · rename_i kind
              cases opened with
              | zero =>
                  cases accepted
                  exact ⟨[], token, rfl, kind, .nil⟩
              | succ outer =>
                  rw [if_neg (Nat.succ_ne_zero outer)] at accepted
                  obtain ⟨header, closing, rfl, closingKind, closes⟩ :=
                    inductionHypothesis accepted
                  exact ⟨token :: header, closing, rfl, closingKind,
                    [], token, header, rfl, .nil, kind, closes⟩
            · rename_i notClosing
              obtain ⟨header, closing, rfl, kind, closes⟩ :=
                inductionHypothesis accepted
              refine ⟨[token] ++ header, closing, rfl, kind, ?_⟩
              exact closes.append fun tail => .token notOpening notClosing tail

theorem loop_sound (nestedSound : nested.Sound .statement)
    {keyword : Token}
    (spelled : keyword.isSpelled .keyword ["while", "for"] = true)
    {tokens rest : List Token} {content : Statement}
    (accepted : loop budget nested keyword (keyword :: tokens) =
      .accept content rest) :
    Reads (.statement content) (keyword :: tokens) rest := by
  obtain ⟨opening, inner, rfl, opens, continued⟩ :=
    expect_bind_eq_accept (advance_bind_eq_accept accepted)
  obtain ⟨_, middle, skip, continued⟩ := bind_eq_accept continued
  obtain ⟨body, after, read, returned⟩ := bind_eq_accept continued
  cases returned
  have repeated := nestedSound read
  obtain ⟨header, closing, rfl, closes, balanced⟩ :=
    closes_of_skipHeader skip (ne_nil_of_begins (repeated.begins_first rfl))
  exact .loop spelled opens balanced closes repeated

theorem expressionStatement_sound {tokens rest : List Token}
    {content : Statement} (notBlock : begins opensBrace tokens = false)
    (accepted : expressionStatement budget tokens = .accept content rest) :
    Reads (.statement content) tokens rest := by
  obtain ⟨value, middle, read, continued⟩ := bind_eq_accept accepted
  obtain ⟨skipped, after, skip, returned⟩ := bind_eq_accept continued
  cases returned
  exact .expressionStatement notBlock (expression_sound budget read)
    (skips_semicolon skip)

theorem anyStatement_sound (nestedSound : nested.Sound .statement) :
    (anyStatement budget nested).Sound .statement := by
  intro tokens content rest accepted
  cases tokens with
  | nil => exact expressionStatement_sound rfl accepted
  | cons token others =>
      rw [anyStatement, advancing_apply, onNext_cons, statementAt] at accepted
      split at accepted
      · rename_i spelled
        exact declaration_sound spelled accepted
      split at accepted
      · rename_i spelled
        exact function_sound nestedSound spelled accepted
      split at accepted
      · rename_i spelled
        exact returning_sound spelled accepted
      split at accepted
      · rename_i spelled
        exact conditional_sound nestedSound spelled accepted
      split at accepted
      · rename_i spelled
        exact loop_sound nestedSound spelled accepted
      split at accepted
      · obtain ⟨⟨body, position⟩, after, read, returned⟩ := bind_eq_accept accepted
        cases returned
        exact .blockStatement (block_sound nestedSound read)
      · rename_i notBrace
        exact expressionStatement_sound (by simpa [opensBrace] using notBrace)
          accepted

theorem statement_sound (budget : Nat) :
    (statement budget).Sound .statement := by
  induction budget with
  | zero =>
      intro tokens content rest accepted
      cases accepted
  | succ budget inductionHypothesis =>
      exact anyStatement_sound inductionHypothesis

end Statements

end ScriptAudit.Grammar
