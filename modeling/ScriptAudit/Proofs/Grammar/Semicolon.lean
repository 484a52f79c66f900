/-
Optional semicolons. A semicolon outside the headers of loops ends a declaration, a
return or an expression. If the token after it cannot be taken for a part of what
it ends, then it may be left out, wherever the statement stands: in a branch, in
the body of a loop or in a block. Only a bare return needs its semicolon, which
keeps it from what follows.
-/

import ScriptAudit.Proofs.Grammar.Appending
import ScriptAudit.Proofs.Grammar.Reprinting

namespace ScriptAudit

namespace Grammar

def openingKinds : List Token.Kind :=
  [.identifier, .number, .string, .boolean, .null, .keyword, .leftBrace,
    .rightBrace]

/-- A semicolon between two stretches of tokens that is not needed there. -/
structure Omissible (front : List Token) (mark : Token) (back : List Token) :
    Prop where
  semicolon : mark.kind = .semicolon
  outside : (Region.code.after front).isHeader = false
  notBare : ∀ last ∈ front.getLast?, last.isSpelled .keyword ["return"] = false
  opens : ∀ next ∈ back.head?, next.kind ∈ openingKinds

def Phrase.isTerminated : Phrase → Bool
  | .block .. | .statement _ | .statements _ => true
  | _ => false

namespace Omissible

variable {front back : List Token} {mark : Token}

theorem declined (omissible : Omissible front mark back) : Declined back := by
  have apart : ∀ kind ∈ openingKinds, kind ∉ listKinds := by decide
  intro token next
  exact apart token.kind (omissible.opens token next)

theorem terminates (omissible : Omissible front mark back) :
    Terminates back back := by
  apply Terminates.absent
  cases back with
  | nil => rfl
  | cons token rest =>
      have apart : ∀ kind ∈ openingKinds, kind ≠ .semicolon := by decide
      rw [begins_cons, isSemicolon, beq_eq_false_iff_ne]
      exact apart token.kind (omissible.opens token rfl)

theorem behind {taken others : List Token} (settled : Region.code.after taken = .code)
    (omissible : Omissible (taken ++ others) mark back) :
    Omissible others mark back := by
  obtain ⟨semicolon, outside, notBare, opens⟩ := omissible
  rw [Region.after_append, settled] at outside
  refine ⟨semicolon, outside, ?_, opens⟩
  intro last member
  exact notBare last (List.mem_getLast?_append_of_mem_getLast? member)

end Omissible

section Locating

variable {phrase : Phrase} {tokens rest front back : List Token}
  {mark token : Token}

theorem exists_behind (semicolon : mark.kind = .semicolon)
    (same : token :: tokens = front ++ mark :: back)
    (other : token.kind ≠ .semicolon) :
    ∃ others, front = token :: others ∧ tokens = others ++ mark :: back := by
  cases front with
  | nil =>
      obtain ⟨rfl, _⟩ := List.cons.inj same
      exact absurd semicolon other
  | cons first others =>
      obtain ⟨rfl, remaining⟩ := List.cons.inj same
      exact ⟨others, rfl, remaining⟩

theorem Omissible.past {kind : Token.Kind}
    (omissible : Omissible front mark back)
    (same : token :: tokens = front ++ mark :: back)
    (known : token.kind = kind) (settled : Region.code.next token = .code)
    (other : kind ≠ .semicolon := by decide) :
    ∃ others, front = token :: others ∧ tokens = others ++ mark :: back ∧
      Omissible others mark back := by
  rw [← known] at other
  obtain ⟨others, rfl, remaining⟩ := exists_behind omissible.semicolon same other
  have alone : Region.code.after [token] = .code := settled
  have whole : Omissible ([token] ++ others) mark back := omissible
  exact ⟨others, rfl, remaining, whole.behind alone⟩

/-- The semicolon is taken off by a reading, or it is left. In the latter case the
reading is the same whatever suits it in the place of what is left. -/
theorem Reads.locate (reading : Reads phrase tokens rest)
    (proper : phrase.Proper) (omissible : Omissible front mark back)
    (same : tokens = front ++ mark :: back) :
    rest <:+ back ∨
      ∃ taken others, front = taken ++ others ∧ rest = others ++ mark :: back ∧
        Omissible others mark back ∧
          ∀ other, Suits phrase rest other →
            Reads phrase (taken ++ other) other := by
  obtain ⟨taken, rfl, moved⟩ := reading.refit
  obtain ⟨_, sameTaken, derivation⟩ := reading.derives
  obtain rfl := List.append_cancel_right sameTaken
  rcases List.append_eq_append_iff.mp same with
    ⟨others, rfl, remaining⟩ | ⟨between, split, remaining⟩
  · have left := omissible.behind (derivation.after_code proper)
    exact .inr ⟨taken, others, rfl, remaining, left, moved⟩
  · cases between with
    | nil =>
        rw [List.append_nil] at split
        rw [← split, ← List.append_nil taken] at omissible
        have left := omissible.behind (derivation.after_code proper)
        exact .inr ⟨taken, [], by rw [List.append_nil, split], remaining.symm, left,
          moved⟩
    | cons first between =>
        obtain ⟨_, rfl⟩ := List.cons.inj remaining
        exact .inl (List.suffix_append between rest)

theorem Reads.leaves (reading : Reads phrase tokens rest)
    (unterminated : phrase.Unterminated) (omissible : Omissible front mark back)
    (same : tokens = front ++ mark :: back) :
    ∃ taken others, front = taken ++ others ∧ rest = others ++ mark :: back ∧
      Omissible others mark back ∧
        ∀ other, Suits phrase rest other →
          Reads phrase (taken ++ other) other := by
  refine (reading.locate unterminated.proper omissible same).resolve_left ?_
  rintro ⟨between, rfl⟩
  obtain ⟨taken, split, derivation⟩ := reading.derives
  have whole : taken ++ rest = front ++ mark :: between ++ rest := by
    rw [← split, same, List.append_assoc, List.cons_append]
  have inside := List.append_cancel_right whole
  have lacks := derivation.lacksSemicolon unterminated
  rw [inside, lacksSemicolon_append, lacksSemicolon_cons, omissible.semicolon] at lacks
  simp at lacks

theorem Reads.not_semicolon {contents : List Statement}
    (reading : Reads (.statements contents) tokens rest)
    (semicolon : mark.kind = .semicolon) (same : tokens = mark :: back) :
    ¬rest <:+ back := by
  intro within
  subst same
  cases reading with
  | noStatements =>
      have bound := within.length_le
      rw [List.length_cons] at bound
      omega
  | moreStatements head _ =>
      have opens : opensStatement mark = true := head.begins_first rfl
      simp [opensStatement, startsStatement_of_semicolon semicolon, opensBrace,
        opensExpression, opensPrimary, primaryKinds, literalKinds, semicolon] at opens

/-- A semicolon that is taken off as a terminator ends what is read. -/
theorem Terminates.omitted (ends : Terminates (front ++ mark :: back) rest)
    (within : rest <:+ back) : front = [] ∧ rest = back := by
  have bound := within.length_le
  generalize same : front ++ mark :: back = middle at ends
  cases ends with
  | semicolon kind =>
      have size := congrArg List.length same
      rw [List.length_append, List.length_cons, List.length_cons] at size
      have empty : front = [] := List.eq_nil_of_length_eq_zero (by omega)
      subst empty
      exact ⟨rfl, (List.cons.inj same).2.symm⟩
  | absent stopped =>
      have size := congrArg List.length same
      rw [List.length_append, List.length_cons] at size
      omega

theorem Omissible.pastHeader {keyword opening closing : Token}
    {header middle : List Token} (omissible : Omissible front mark back)
    (spelled : isLoopKeyword keyword = true) (opens : opening.kind = .leftParen)
    (balanced : Balanced header) (closes : closing.kind = .rightParen)
    (same : keyword :: opening :: (header ++ closing :: middle) =
      front ++ mark :: back) :
    ∃ others, front = keyword :: opening :: (header ++ closing :: others) ∧
      middle = others ++ mark :: back ∧ Omissible others mark back := by
  have semicolon := omissible.semicolon
  have keywordKind : keyword.kind ≠ .semicolon := by
    rw [kind_of_isSpelled spelled]
    decide
  have openingKind : opening.kind ≠ .semicolon := by
    rw [opens]
    decide
  have closingKind : closing.kind ≠ .semicolon := by
    rw [closes]
    decide
  obtain ⟨_, rfl, afterKeyword⟩ := exists_behind semicolon same keywordKind
  obtain ⟨inner, rfl, afterOpening⟩ :=
    exists_behind semicolon afterKeyword openingKind
  rcases List.append_eq_append_iff.mp afterOpening with
    ⟨_, rfl, afterInner⟩ | ⟨between, rfl, _⟩
  · obtain ⟨others, rfl, remaining⟩ :=
      exists_behind semicolon afterInner closingKind
    have entered := after_header spelled opens balanced closes
    have settled : Region.code.after
        (keyword :: opening :: (header ++ [closing])) = .code := by
      simp [entered.1, entered.2]
    have whole : Omissible
        (keyword :: opening :: (header ++ [closing]) ++ others) mark back := by
      simpa using omissible
    exact ⟨others, rfl, remaining, whole.behind settled⟩
  · -- The semicolon would be inside the header.
    have outside := omissible.outside
    rw [Region.after_cons, Region.after_cons, enters_header spelled opens,
      (balanced.stays 0).inside inner ⟨between, rfl⟩] at outside
    cases outside

end Locating

/-! ### Statements without a semicolon -/

/-- A phrase made of statements is read as before without a semicolon that it
takes off and that is not needed. -/
theorem Reads.withoutSemicolon {phrase : Phrase} {tokens rest : List Token}
    {mark : Token} (reading : Reads phrase tokens rest) :
    phrase.isTerminated = true → ∀ {front back : List Token},
      Omissible front mark back → tokens = front ++ mark :: back →
        rest <:+ back → Reads phrase (front ++ back) rest := by
  induction reading with
  | declaration spelled list ends =>
      intro _ front back omissible same within
      obtain ⟨_, rfl, same, omissible⟩ := omissible.past same
        (kind_of_isSpelled spelled) (next_code_of_isSpelled spelled)
      obtain ⟨taken, others, rfl, rfl, omissible, moved⟩ :=
        list.leaves trivial omissible same
      obtain ⟨rfl, rfl⟩ := ends.omitted within
      rw [List.append_nil]
      exact .declaration spelled (moved _ (.inr ⟨trivial, omissible.declined⟩))
        omissible.terminates
  | function spelled kind opens parameters closes _ _ block =>
      intro _ front back omissible same within
      obtain ⟨_, rfl, same, omissible⟩ := omissible.past same
        (kind_of_isSpelled spelled) (next_code_of_isSpelled spelled)
      obtain ⟨_, rfl, same, omissible⟩ := omissible.past same kind
        (next_code_of_kind kind)
      obtain ⟨_, rfl, same, omissible⟩ := omissible.past same opens
        (next_code_of_kind opens)
      obtain ⟨taken, _, rfl, same, omissible, moved⟩ :=
        parameters.leaves trivial omissible same
      obtain ⟨others, rfl, same, omissible⟩ := omissible.past same closes
        (next_code_of_kind closes)
      have body := block rfl omissible same within
      have names := moved (_ :: (others ++ back)) (.inl rfl)
      simpa using Reads.function spelled kind opens names closes body
  | @returnNothing keyword _ _ spelled _ ends =>
      intro _ front back omissible same within
      have notBare := omissible.notBare
      obtain ⟨_, rfl, remaining, _⟩ := omissible.past same
        (kind_of_isSpelled spelled) (next_code_of_isSpelled spelled)
      subst remaining
      obtain ⟨rfl, _⟩ := ends.omitted within
      -- The semicolon stands right behind the keyword, where it may not be left out.
      have bare := notBare keyword rfl
      rw [bare] at spelled
      cases spelled
  | returnValue spelled argument ends =>
      intro _ front back omissible same within
      obtain ⟨_, rfl, same, omissible⟩ := omissible.past same
        (kind_of_isSpelled spelled) (next_code_of_isSpelled spelled)
      obtain ⟨taken, others, rfl, rfl, omissible, moved⟩ :=
        argument.leaves trivial omissible same
      obtain ⟨rfl, rfl⟩ := ends.omitted within
      rw [List.append_nil]
      exact .returnValue spelled (moved _ (.inr ⟨trivial, omissible.declined⟩))
        omissible.terminates
  | ifThen spelled opens condition closes _ stopped _ branch =>
      intro _ front back omissible same within
      obtain ⟨_, rfl, same, omissible⟩ := omissible.past same
        (kind_of_isSpelled spelled) (next_code_of_isSpelled spelled)
      obtain ⟨_, rfl, same, omissible⟩ := omissible.past same opens
        (next_code_of_kind opens)
      obtain ⟨taken, _, rfl, same, omissible, moved⟩ :=
        condition.leaves trivial omissible same
      obtain ⟨others, rfl, same, omissible⟩ := omissible.past same closes
        (next_code_of_kind closes)
      have consequent := branch rfl omissible same within
      have test := moved (_ :: (others ++ back)) (.inl rfl)
      simpa using Reads.ifThen spelled opens test closes consequent stopped
  | ifElse spelled opens condition closes consequent elseSpelled alternate _ branch
      other =>
      intro _ front back omissible same within
      obtain ⟨_, rfl, same, omissible⟩ := omissible.past same
        (kind_of_isSpelled spelled) (next_code_of_isSpelled spelled)
      obtain ⟨_, rfl, same, omissible⟩ := omissible.past same opens
        (next_code_of_kind opens)
      obtain ⟨taken, _, rfl, same, omissible, moved⟩ :=
        condition.leaves trivial omissible same
      obtain ⟨others, rfl, same, omissible⟩ := omissible.past same closes
        (next_code_of_kind closes)
      have test := moved (_ :: (others ++ back)) (.inl rfl)
      rcases consequent.locate trivial omissible same with
        inside | ⟨first, _, rfl, same, omissible, movedFirst⟩
      · have shorter := branch rfl omissible same inside
        simpa using Reads.ifElse spelled opens test closes shorter elseSpelled
          alternate
      · obtain ⟨later, rfl, same, omissible⟩ := omissible.past same
          (kind_of_isSpelled elseSpelled) (next_code_of_isSpelled elseSpelled)
        have shorter := other rfl omissible same within
        have before := movedFirst (_ :: (later ++ back)) (.inl rfl)
        simp only [List.append_assoc, List.cons_append] at test ⊢
        exact .ifElse spelled opens test closes before elseSpelled shorter
  | loop spelled opens balanced closes _ repeated =>
      intro _ front back omissible same within
      obtain ⟨others, rfl, same, omissible⟩ :=
        omissible.pastHeader spelled opens balanced closes same
      have body := repeated rfl omissible same within
      simpa using Reads.loop spelled opens balanced closes body
  | blockStatement _ block =>
      intro _ front back omissible same within
      exact .blockStatement (block rfl omissible same within)
  | expressionStatement notBlock content ends =>
      intro _ front back omissible same within
      obtain ⟨taken, others, rfl, rfl, left, moved⟩ :=
        content.leaves trivial omissible same
      obtain ⟨rfl, rfl⟩ := ends.omitted within
      have value := moved _ (.inr ⟨trivial, left.declined⟩)
      have nonempty : taken ≠ [] := by
        rintro rfl
        exact Nat.lt_irrefl _ (value.length_lt rfl)
      rw [List.append_nil] at same ⊢
      rw [same, begins_append_left nonempty, ← begins_append_left nonempty]
        at notBlock
      exact .expressionStatement notBlock value left.terminates
  | block opens list closes inner =>
      intro _ front back omissible same within
      obtain ⟨_, rfl, same, omissible⟩ := omissible.past same opens
        (next_code_of_kind opens)
      rcases list.locate trivial omissible same with
        inside | ⟨taken, _, rfl, same, omissible, _⟩
      · exact .block opens (inner rfl omissible same inside) closes
      · -- What follows the closing brace does not begin before the semicolon.
        obtain ⟨others, _, same, _⟩ := omissible.past same closes
          (next_code_of_kind closes)
        have bound := within.length_le
        rw [same, List.length_append, List.length_cons] at bound
        omega
  | noStatements =>
      intro _ front back _ same within
      have bound := within.length_le
      rw [same, List.length_append, List.length_cons] at bound
      omega
  | moreStatements head tail first later =>
      intro _ front back omissible same within
      rcases head.locate trivial omissible same with
        inside | ⟨taken, others, rfl, same, omissible, moved⟩
      · exact .moreStatements (first rfl omissible same inside) tail
      · have shorter := later rfl omissible same within
        have remains : others ≠ [] := by
          rintro rfl
          exact tail.not_semicolon omissible.semicolon same within
        have heads : (others ++ mark :: back).head? = (others ++ back).head? := by
          rw [List.head?_append_of_ne_nil _ remains,
            List.head?_append_of_ne_nil _ remains]
        rw [← same] at heads
        rw [List.append_assoc]
        exact .moreStatements (moved _ (.inl heads)) shorter
  | _ => exact fun terminated => Bool.noConfusion terminated

end Grammar

open Grammar

/--
Where tokens are read without diagnostics, a semicolon that is not needed may be
left out: the tokens are still read without diagnostics, and as the same program.
-/
theorem parseTokens_withoutSemicolon (front back : List Token) (mark : Token)
    (meaningful : Meaningful (front ++ back))
    (omissible : Omissible front mark back)
    (clean : (parseTokens (front ++ mark :: back)).diagnostics = []) :
    (parseTokens (front ++ back)).diagnostics = [] ∧
      (parseTokens (front ++ back)).program =
        (parseTokens (front ++ mark :: back)).program := by
  have marked : Meaningful (front ++ mark :: back) := by
    rw [Meaningful.append_iff] at meaningful
    rw [Meaningful.append_iff, Meaningful.cons_iff, omissible.semicolon]
    exact ⟨meaningful.1, by decide, meaningful.2⟩
  have reading := (parseTokens_eq_iff _ _).mp ⟨clean, rfl⟩
  rw [marked.stream] at reading
  have shorter := reading.withoutSemicolon rfl omissible rfl List.nil_suffix
  rw [← meaningful.stream] at shorter
  obtain ⟨still, same⟩ := (parseTokens_eq_iff _ _).mpr shorter
  exact ⟨still, congrArg Program.mk same⟩

/-- The end of a branch, in the body of a loop. -/
def openBranch : List Token :=
  (Token.Stream.ofTokens (tokenize "if (a) for (;;) b()")).tokens

def alternative : List Token :=
  (Token.Stream.ofTokens (tokenize "else return c")).tokens

theorem parseTokens_withoutSemicolon_beforeElse :
    (parseTokens (openBranch ++ alternative)).diagnostics = [] ∧
      (parseTokens (openBranch ++ alternative)).program =
        (parseTokens
          (openBranch ++ ⟨.semicolon, ";", ⟨1, 20⟩⟩ :: alternative)).program := by
  apply parseTokens_withoutSemicolon
  · unfold Meaningful
    decide +kernel
  · constructor
    · rfl
    · decide +kernel
    · decide +kernel
    · decide +kernel
  · decide +kernel

end ScriptAudit
