/-
Extents: how the bytes of a source are shared out among its tokens.

A source is a sequence of gaps, made of blanks, and extents, one for each token.
An extent is covered by its token. The place of a token counts the newlines and
the bytes before its extent.
-/

import ScriptAudit.Proofs.Token.Covering
import ScriptAudit.Token.Lexer
import ScriptAudit.Token.Stream

namespace ScriptAudit

open Bytes

def placeAfter (text : Bytes) : Position :=
  { line := 1 + text.count newline
    column := 1 + (text.reverse.takeWhile (· != newline)).length }

theorem placeAfter_append_singleton (text : Bytes) (byte : UInt8) :
    placeAfter (text ++ [byte]) = (placeAfter text).after byte := by
  unfold placeAfter Position.after
  rw [List.count_append, List.reverse_append, List.reverse_singleton,
    List.singleton_append]
  by_cases same : byte = newline
  · rw [if_pos same, same]
    simp
    omega
  · rw [if_neg same]
    simp [same]
    omega

theorem placeAfter_append (text others : Bytes) :
    placeAfter (text ++ others) = (placeAfter text).advance others := by
  induction others generalizing text with
  | nil => rw [List.append_nil, Position.advance_nil]
  | cons byte rest inductionHypothesis =>
      rw [Position.advance_cons, ← placeAfter_append_singleton,
        ← inductionHypothesis, List.append_assoc, List.singleton_append]

/-! ### Whole sources -/

/--
`Laid consumed source tokens`: after the bytes `consumed`, the source is a
sequence of gaps and extents that belong to the tokens. The last token is the
only one without an extent; it stands after the last gap.
-/
inductive Laid : Bytes → Bytes → List Token → Prop where
  | finish {consumed gap : Bytes}
      (blank : ∀ byte ∈ gap, Piece.isBlank byte = true) :
      Laid consumed gap [Token.finish (placeAfter (consumed ++ gap))]
  | token {consumed gap extent rest : Bytes} {token : Token}
      {tokens : List Token}
      (blank : ∀ byte ∈ gap, Piece.isBlank byte = true)
      (nonempty : extent ≠ [])
      (covers : Covers token.kind token.lexeme extent rest)
      (place : token.position = placeAfter (consumed ++ gap))
      (others : Laid (consumed ++ gap ++ extent) rest tokens) :
      Laid consumed (gap ++ extent ++ rest) (token :: tokens)

theorem Laid.blank {consumed source : Bytes} {byte : UInt8}
    {tokens : List Token} (isBlank : Piece.isBlank byte = true)
    (laid : Laid (consumed ++ [byte]) source tokens) :
    Laid consumed (byte :: source) tokens := by
  have extended {gap : Bytes} (blank : ∀ byte ∈ gap, Piece.isBlank byte = true) :
      ∀ other ∈ byte :: gap, Piece.isBlank other = true :=
    List.forall_mem_cons.mpr ⟨isBlank, blank⟩
  cases laid with
  | @finish _ gap blank =>
      rw [List.append_assoc]
      exact .finish (extended blank)
  | @token _ gap extent rest token tokens blank nonempty covers place others =>
      rw [List.append_assoc] at place
      rw [List.append_assoc consumed] at others
      have whole : Laid consumed (byte :: gap ++ extent ++ rest)
          (token :: tokens) :=
        .token (extended blank) nonempty covers place others
      exact whole

theorem tokensFrom_piece {position : Position} {piece : Piece} {rest : Bytes}
    (nonempty : piece.extent ≠ [])
    (found : Piece.first? (piece.extent ++ rest) = some piece) :
    tokensFrom 0 position (piece.extent ++ rest) =
      piece.token position ::
        tokensFrom 0 (position.advance piece.extent) rest := by
  cases extent : piece.extent with
  | nil => exact absurd extent nonempty
  | cons byte others =>
      rw [extent, List.cons_append] at found
      rw [List.cons_append, tokensFrom, found]
      simp only [extent, List.length_cons, Nat.add_sub_cancel,
        Position.advance_cons]
      rw [tokensFrom_covered, List.take_left, List.drop_left]

theorem isBlank_of_first?_eq_none {byte : UInt8} {rest : Bytes}
    (missing : Piece.first? (byte :: rest) = none) :
    Piece.isBlank byte = true := by
  rw [Piece.first?] at missing
  split at missing
  · rename_i blank
    exact blank
  · repeat' split at missing
    all_goals cases missing

theorem tokensFrom_laid (consumed source : Bytes) :
    Laid consumed source (tokensFrom 0 (placeAfter consumed) source) := by
  induction counted : source.length using Nat.strongRecOn
    generalizing consumed source with
  | ind size inductionHypothesis =>
      cases source with
      | nil =>
          have empty : Laid consumed []
              [Token.finish (placeAfter (consumed ++ []))] :=
            .finish (List.forall_mem_nil _)
          rw [List.append_nil] at empty
          exact empty
      | cons byte rest =>
          cases found : Piece.first? (byte :: rest) with
          | none =>
              have shorter : rest.length < size := by
                rw [← counted, List.length_cons]
                exact Nat.lt_succ_self rest.length
              have later := inductionHypothesis _ shorter (consumed ++ [byte])
                rest rfl
              rw [placeAfter_append_singleton] at later
              rw [tokensFrom, found]
              exact later.blank (isBlank_of_first?_eq_none found)
          | some piece =>
              obtain ⟨nonempty, others, same, covers⟩ := first?_fits found
              have positive := List.length_pos_iff.mpr nonempty
              have shorter : others.length < size := by
                rw [← counted, same, List.length_append]
                omega
              have later := inductionHypothesis _ shorter
                (consumed ++ [] ++ piece.extent) others rfl
              rw [same] at found ⊢
              rw [tokensFrom_piece nonempty found, ← placeAfter_append]
              have place : (piece.token (placeAfter consumed)).position =
                  placeAfter (consumed ++ []) := by
                rw [List.append_nil]
                rfl
              -- Blanks join the gap from its end; at a token there is none yet.
              have noGap : ∀ byte ∈ ([] : Bytes), Piece.isBlank byte = true :=
                List.forall_mem_nil _
              have whole := Laid.token noGap nonempty covers place later
              rw [List.append_nil, List.nil_append] at whole
              exact whole

theorem Laid.finishes {consumed source : Bytes} {tokens : List Token}
    (laid : Laid consumed source tokens) :
    ∃ others, tokens = others ++ [Token.finish (placeAfter (consumed ++ source))] ∧
      ∀ token ∈ others, token.kind ≠ .endOfFile := by
  induction laid with
  | finish blank => exact ⟨[], rfl, List.forall_mem_nil _⟩
  | @token _ _ _ _ token _ _ _ covers _ _ inductionHypothesis =>
      obtain ⟨others, same, kinds⟩ := inductionHypothesis
      refine ⟨token :: others, ?_, ?_⟩
      · rw [same]
        simp
      · exact List.forall_mem_cons.mpr
          ⟨covers.kind_ne_endOfFile, kinds⟩

theorem tokensFrom_blank {byte : UInt8} (blank : Piece.isBlank byte = true)
    (position : Position) (rest : Bytes) :
    tokensFrom 0 position (byte :: rest) =
      tokensFrom 0 (position.after byte) rest := by
  have missing : Piece.first? (byte :: rest) = none := if_pos blank
  rw [tokensFrom, missing]

theorem tokensFrom_gap {gap : Bytes}
    (blank : ∀ byte ∈ gap, Piece.isBlank byte = true) (position : Position)
    (rest : Bytes) :
    tokensFrom 0 position (gap ++ rest) =
      tokensFrom 0 (position.advance gap) rest := by
  induction gap generalizing position with
  | nil => rfl
  | cons byte others inductionHypothesis =>
      obtain ⟨first, later⟩ := List.forall_mem_cons.mp blank
      rw [List.cons_append, tokensFrom_blank first, inductionHypothesis later,
        Position.advance_cons]

/-- Each extent is taken off as it is covered, so there is only one layout. -/
theorem Laid.eq_tokensFrom {consumed source : Bytes} {tokens : List Token}
    (laid : Laid consumed source tokens) :
    tokensFrom 0 (placeAfter consumed) source = tokens := by
  induction laid with
  | @finish consumed gap blank =>
      have scanned := tokensFrom_gap blank (placeAfter consumed) []
      rw [List.append_nil, ← placeAfter_append] at scanned
      exact scanned
  | @token consumed gap extent rest token tokens blank nonempty covers place _
      inductionHypothesis =>
      have scanned (position : Position) :
          tokensFrom 0 position (extent ++ rest) =
            ⟨token.kind, token.lexeme, position⟩ ::
              tokensFrom 0 (position.advance extent) rest :=
        @tokensFrom_piece position ⟨token.kind, extent, token.lexeme⟩ rest nonempty
          covers.first?_eq
      rw [List.append_assoc, tokensFrom_gap blank, ← placeAfter_append, scanned,
        ← placeAfter_append, inductionHypothesis, ← place]

/--
The tokens of a source are laid out over its bytes without loss, and in one way only:
blanks make up the gaps, every token but the last covers an extent, and its place
counts what stands before the extent. The bytes of an extent determine the kind and
the lexeme of its token. The last token alone ends the file.
-/
theorem tokenize_laid (source : Bytes) :
    (∀ tokens, Laid [] source tokens ↔ tokenize source = tokens) ∧
      (∀ {kind other : Token.Kind} {lexeme otherLexeme extent rest following : Bytes},
        Covers kind lexeme extent rest →
          Covers other otherLexeme extent following →
            kind = other ∧ lexeme = otherLexeme) ∧
      ∃ tokens, tokenize source = tokens ++ [Token.finish (placeAfter source)] ∧
        ∀ token ∈ tokens, token.kind ≠ .endOfFile := by
  have laid := tokensFrom_laid [] source
  refine ⟨fun tokens => ⟨Laid.eq_tokensFrom, ?_⟩, Covers.unique, laid.finishes⟩
  rintro rfl
  exact laid

/-- A string that ends in a backslash is open, and the backslash is no part of its
lexeme. -/
theorem tokenize_laid_openString :
    Laid [] "'\\" [⟨.string, [], .start⟩, Token.finish ⟨1, 3⟩] ∧
      ∀ kind lexeme, Covers kind lexeme "'\\" [] →
        kind = .string ∧ lexeme = [] := by
  obtain ⟨laid, determined, _⟩ := tokenize_laid "'\\"
  have onlyEscaped : OnlyEscaped 0x27 [backslash] := by
    rintro (_ | ⟨_, _ | _⟩) back same <;> cases same
  have covers : Covers .string [] "'\\" [] := .openString rfl onlyEscaped
  exact ⟨(laid _).mpr (by decide +kernel), fun _ _ also => determined also covers⟩

/-- The tokens that the grammar looks at. -/
def significant (source : Bytes) : List Token :=
  (tokenize source).filter fun token => !token.kind.isTrivia

theorem significant_eq_append (source : Bytes) :
    significant source =
      (Token.Stream.ofTokens (tokenize source)).tokens ++
        [Token.finish (placeAfter source)] := by
  obtain ⟨others, same, kinds⟩ := (tokensFrom_laid [] source).finishes
  have split : significant source =
      others.filter (fun token => !token.kind.isTrivia) ++
        [Token.finish (placeAfter source)] := by
    have whole : tokenize source = _ := same
    rw [significant, whole, List.filter_append]
    rfl
  have unfinished : ∀ token ∈ others.filter (fun token => !token.kind.isTrivia),
      (!Token.Stream.isFinish token) = true := by
    intro token member
    simp [Token.Stream.isFinish, kinds token (List.mem_filter.mp member).1]
  have parsed : (Token.Stream.ofTokens (tokenize source)).tokens =
      (significant source).takeWhile fun token => !Token.Stream.isFinish token :=
    rfl
  have stops : [Token.finish (placeAfter source)].takeWhile
      (fun token => !Token.Stream.isFinish token) = [] :=
    rfl
  rw [parsed, split, List.takeWhile_append_of_pos unfinished, stops,
    List.append_nil]

end ScriptAudit
