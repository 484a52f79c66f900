/-
Scanning can be resumed at the end of a line. If a text ends with a newline that
is a token of its own, then what follows the text changes nothing in its tokens,
and the tokens of what follows are those it has alone, some lines further down.
-/

import Mathlib.Data.List.Basic
import ScriptAudit.Proofs.Token.Extent
import ScriptAudit.Proofs.Tree.Relocation

namespace ScriptAudit

open Bytes

theorem takeWhile_append_of_newline {test : UInt8 → Bool} {source : Bytes}
    (inside : newline ∈ source) (stops : test newline = false) (more : Bytes) :
    (source ++ more).takeWhile test = source.takeWhile test := by
  induction source with
  | nil => cases inside
  | cons byte rest inductionHypothesis =>
      rw [List.cons_append, List.takeWhile_cons, List.takeWhile_cons]
      split
      · rename_i passes
        rcases List.mem_cons.mp inside with rfl | later
        · rw [stops] at passes
          cases passes
        · rw [inductionHypothesis later]
      · rfl

theorem newline_mem_dropWhile {test : UInt8 → Bool} {source : Bytes}
    (inside : newline ∈ source) (stops : test newline = false) :
    newline ∈ source.dropWhile test := by
  rw [← List.takeWhile_append_dropWhile (p := test) (l := source),
    List.mem_append] at inside
  rcases inside with front | back
  · have passes := List.all_eq_true.mp List.all_takeWhile _ front
    rw [stops] at passes
    cases passes
  · exact back

theorem dropWhile_append_of_newline {test : UInt8 → Bool} {source : Bytes}
    (inside : newline ∈ source) (stops : test newline = false) (more : Bytes) :
    (source ++ more).dropWhile test = source.dropWhile test ++ more := by
  have nonempty := List.ne_nil_of_mem (newline_mem_dropWhile inside stops)
  rw [List.dropWhile_append, if_neg]
  rwa [List.isEmpty_iff]

theorem isPrefixOf_append_of_newline {spelling source : Bytes}
    (inside : newline ∈ source) (outside : newline ∉ spelling) (more : Bytes) :
    spelling.isPrefixOf (source ++ more) = spelling.isPrefixOf source := by
  induction spelling generalizing source with
  | nil => rfl
  | cons byte others inductionHypothesis =>
      cases source with
      | nil => cases inside
      | cons first rest =>
          rw [List.cons_append, List.isPrefixOf, List.isPrefixOf]
          by_cases same : byte = first
          · rw [same] at outside
            have different := List.ne_of_not_mem_cons outside
            have later := List.mem_of_ne_of_mem different inside
            rw [inductionHypothesis later (List.not_mem_of_not_mem_cons outside)]
          · rw [beq_false_of_ne same, Bool.false_and, Bool.false_and]

/-! ### Pieces -/

namespace Piece

variable {source : Bytes} (inside : newline ∈ source) (more : Bytes)

include inside in
theorem lineComment_append :
    lineComment (source ++ more) = lineComment source := by
  unfold lineComment
  rw [takeWhile_append_of_newline inside (by decide)]

include inside in
theorem word_append : word (source ++ more) = word source := by
  unfold word
  rw [takeWhile_append_of_newline inside (by decide)]

include inside in
theorem fractionalText_append :
    fractionalText (source ++ more) = fractionalText source := by
  cases source with
  | nil => cases inside
  | cons byte rest =>
      rw [List.cons_append, fractionalText, fractionalText]
      split
      · rename_i pointed
        rw [pointed] at inside
        have later := List.mem_of_ne_of_mem (by decide) inside
        rw [takeWhile_append_of_newline later (by decide)]
      · rfl

include inside in
theorem number_append : number (source ++ more) = number source := by
  unfold number
  rw [takeWhile_append_of_newline inside (by decide),
    dropWhile_append_of_newline inside (by decide),
    fractionalText_append (newline_mem_dropWhile inside (by decide))]

theorem symbol_append {byte : UInt8} {rest : Bytes}
    (inside : newline ∈ byte :: rest) :
    symbol byte (rest ++ more) = symbol byte rest := by
  have plain : ∀ operator ∈ Token.operators,
      newline ∉ operator.spelling := by
    decide
  have same : Token.operator? (byte :: (rest ++ more)) =
      Token.operator? (byte :: rest) := by
    unfold Token.operator?
    rw [← List.head?_filter, ← List.head?_filter]
    congr 1
    apply List.filter_congr
    intro operator listed
    exact isPrefixOf_append_of_newline inside (plain operator listed) more
  unfold symbol
  rw [same]

theorem enclosedText_append {source : Bytes}
    (closed : source ≠ enclosedText source) :
    enclosedText (source ++ more) = enclosedText source := by
  induction source with
  | nil => exact absurd rfl closed
  | cons byte rest inductionHypothesis =>
      rw [enclosedText] at closed
      rw [List.cons_append, enclosedText, enclosedText]
      by_cases marker : byte = asterisk ∧ rest.head? = some slash
      · obtain ⟨others, same⟩ := List.head?_eq_some_iff.mp marker.2
        rw [if_pos marker, if_pos]
        rw [same]
        exact ⟨marker.1, rfl⟩
      · rw [if_neg marker] at closed ⊢
        cases rest with
        | nil => exact absurd rfl closed
        | cons first others =>
            have unclosed := inductionHypothesis fun same =>
              closed (congrArg _ same)
            rw [unclosed]
            exact if_neg marker

theorem blockComment_append {source : Bytes}
    (closed : source ≠ enclosedText source) :
    blockComment (source ++ more) = blockComment source := by
  obtain ⟨rest, same⟩ := (enclosedText_stops source).resolve_left closed
  have drop := drop_length_of_eq same
  have dropMore : (source ++ more).drop (enclosedText source).length =
      asterisk :: slash :: rest ++ more := by
    apply drop_length_of_eq
    rw [← List.append_assoc, ← same]
  simp only [blockComment, enclosedText_append more closed, drop, dropMore]
  rfl

theorem extent_blockComment {source : Bytes}
    (whole : source = enclosedText source) :
    (blockComment source).extent = slash :: asterisk :: source := by
  simp only [blockComment, ← whole, List.drop_length, List.take_nil,
    List.append_nil]

theorem quotedText_append {quote : UInt8} {escaped : Bool} {source : Bytes}
    (closed : source ≠ quotedText quote escaped source) :
    quotedText quote escaped (source ++ more) =
      quotedText quote escaped source := by
  induction source generalizing escaped with
  | nil => exact absurd rfl closed
  | cons byte rest inductionHypothesis =>
      rw [quotedText] at closed
      rw [List.cons_append, quotedText, quotedText]
      by_cases covered : escaped = true
      · rw [if_pos covered] at closed ⊢
        rw [if_pos covered,
          inductionHypothesis fun same => closed (congrArg _ same)]
      · rw [if_neg covered] at closed ⊢
        rw [if_neg covered]
        by_cases closing : byte = quote
        · rw [if_pos closing, if_pos closing]
        · rw [if_neg closing] at closed ⊢
          rw [if_neg closing,
            inductionHypothesis fun same => closed (congrArg _ same)]

theorem quoted_append {quote : UInt8} {source : Bytes}
    (closed : source ≠ quotedText quote false source) :
    quoted quote (source ++ more) = quoted quote source := by
  have stops := (quoted_quotedText quote [] source).stops
  obtain ⟨rest, same, _⟩ := stops.resolve_left closed
  change source = quotedText quote false source ++ quote :: rest at same
  have drop := drop_length_of_eq same
  have dropMore : (source ++ more).drop (quotedText quote false source).length =
      quote :: rest ++ more := by
    apply drop_length_of_eq
    rw [← List.append_assoc, ← same]
  simp only [quoted, quotedText_append more closed, drop, dropMore]
  rfl

theorem extent_quoted {quote : UInt8} {source : Bytes}
    (whole : source = quotedText quote false source) :
    (quoted quote source).extent = quote :: source := by
  simp only [quoted, ← whole, List.drop_length, List.take_nil, List.append_nil]

/-- What follows a source does not change its first piece, if the source has a
newline and the piece does not take up all of it. -/
theorem first?_append {source : Bytes} {piece : Piece}
    (inside : newline ∈ source) (found : first? source = some piece)
    (closed : piece.extent ≠ source) :
    first? (source ++ more) = some piece := by
  cases source with
  | nil => cases inside
  | cons byte rest =>
      rw [first?] at found
      rw [List.cons_append, first?]
      by_cases blank : isBlank byte = true
      · rw [if_pos blank] at found
        cases found
      rw [if_neg blank] at found ⊢
      by_cases ends : byte = newline
      · rwa [if_pos ends] at found ⊢
      rw [if_neg ends] at found ⊢
      have later : newline ∈ rest := List.mem_of_ne_of_mem (Ne.symm ends) inside
      have nonempty := List.ne_nil_of_mem later
      have head : (rest ++ more).head? = rest.head? :=
        List.head?_append_of_ne_nil rest nonempty
      rw [head, List.tail_append_of_ne_nil nonempty]
      by_cases line : byte = slash ∧ rest.head? = some slash
      · rw [if_pos line] at found ⊢
        obtain ⟨others, rfl⟩ := List.head?_eq_some_iff.mp line.2
        have text : newline ∈ others := List.mem_of_ne_of_mem (by decide) later
        rwa [List.tail_cons, lineComment_append text]
      rw [if_neg line] at found ⊢
      by_cases marker : byte = slash ∧ rest.head? = some asterisk
      · rw [if_pos marker] at found ⊢
        obtain ⟨others, rfl⟩ := List.head?_eq_some_iff.mp marker.2
        rw [List.tail_cons] at found ⊢
        rwa [blockComment_append]
        -- Left open, the comment would take up the whole source.
        intro whole
        apply closed
        rw [marker.1, ← Option.some.inj found]
        exact extent_blockComment whole
      rw [if_neg marker] at found ⊢
      by_cases opens : isQuote byte = true
      · rw [if_pos opens] at found ⊢
        rwa [quoted_append]
        intro whole
        apply closed
        rw [← Option.some.inj found]
        exact extent_quoted whole
      rw [if_neg opens] at found ⊢
      by_cases digit : isDigit byte = true
      · rw [if_pos digit] at found ⊢
        rwa [← List.cons_append, number_append inside]
      rw [if_neg digit] at found ⊢
      by_cases starts : Token.isWordStart byte = true
      · rw [if_pos starts] at found ⊢
        rwa [← List.cons_append, word_append inside]
      rw [if_neg starts] at found ⊢
      rwa [symbol_append more inside]

end Piece

/-! ### Token lists -/

theorem Covers.eq_newline {lexeme extent rest : Bytes}
    (covers : Covers .newline lexeme extent rest) : extent = [Bytes.newline] := by
  have special : Token.Kind.newline ∈ Token.specialKinds := by decide
  generalize known : Token.Kind.newline = kind at covers special
  cases covers with
  | newline => rfl
  | word => exact absurd special (Token.wordKind_not_special _)
  | punctuation listed =>
      exact absurd special (Token.punctuation_not_special _ listed)
  | operator longest =>
      exact absurd special (Token.operators_not_special _ longest.listed)
  | _ => cases known

theorem ends_of_append {front back : Bytes}
    (last : (front ++ back).getLast? = some newline) :
    back = [] ∨ back.getLast? = some newline := by
  by_cases empty : back = []
  · exact .inl empty
  · rw [List.getLast?_append_of_ne_nil front empty] at last
    exact .inr last

theorem tokensFrom_ne_nil (covered : Nat) (position : Position)
    (source : Bytes) : tokensFrom covered position source ≠ [] := by
  fun_induction tokensFrom covered position source with
  | case1 | case4 => exact List.cons_ne_nil _ _
  | case2 _ _ _ _ inductionHypothesis => exact inductionHypothesis
  | case3 _ _ _ _ inductionHypothesis => exact inductionHypothesis

theorem first?_newline_append {piece : Piece} (more : Bytes)
    (found : Piece.first? piece.extent = some piece)
    (covers : Covers piece.kind piece.lexeme piece.extent [])
    (kind : piece.kind = .newline) :
    Piece.first? (piece.extent ++ more) = some piece := by
  rw [kind] at covers
  rw [covers.eq_newline] at found ⊢
  exact found

/-- A text whose last newline is a token of its own keeps its tokens, whatever
follows it. -/
theorem tokensFrom_append {source : Bytes} (more : Bytes) (position : Position)
    (ends : source = [] ∨ source.getLast? = some newline)
    (closed : ∀ token ∈ (tokensFrom 0 position source).dropLast.getLast?,
      token.kind = .newline) :
    tokensFrom 0 position (source ++ more) =
      (tokensFrom 0 position source).dropLast
        ++ tokensFrom 0 (position.advance source) more := by
  induction counted : source.length using Nat.strongRecOn
    generalizing position source with
  | ind size inductionHypothesis =>
      cases source with
      | nil => rfl
      | cons byte rest =>
          have last := ends.resolve_left (List.cons_ne_nil byte rest)
          have inside : newline ∈ byte :: rest := List.mem_of_getLast? last
          cases found : Piece.first? (byte :: rest) with
          | none =>
              have blank := isBlank_of_first?_eq_none found
              have foundMore : Piece.first? (byte :: (rest ++ more)) = none :=
                if_pos blank
              have shorter : rest.length < size := by
                rw [← counted, List.length_cons]
                exact Nat.lt_succ_self rest.length
              rw [← List.singleton_append] at last
              rw [tokensFrom, found] at closed
              rw [List.cons_append, tokensFrom, foundMore, tokensFrom, found]
              exact inductionHypothesis _ shorter _ (ends_of_append last) closed
                rfl
          | some piece =>
              obtain ⟨nonempty, others, same, covers⟩ := first?_fits found
              rw [same] at found closed last inside ⊢
              have split : (tokensFrom 0 position (piece.extent ++ others)).dropLast =
                  piece.token position ::
                    (tokensFrom 0 (position.advance piece.extent) others).dropLast := by
                rw [tokensFrom_piece nonempty found]
                exact List.dropLast_cons_of_ne_nil (tokensFrom_ne_nil 0 _ others)
              rw [split] at closed
              have foundMore : Piece.first? (piece.extent ++ (others ++ more)) =
                  some piece := by
                -- Only a newline may take up all that is left.
                by_cases empty : others = []
                · subst empty
                  have kind := closed (piece.token position) rfl
                  rw [List.append_nil] at found
                  exact first?_newline_append more found covers kind
                · rw [← List.append_assoc]
                  apply Piece.first?_append more inside found
                  intro whole
                  exact empty (List.self_eq_append_right.mp whole)
              have shorter : others.length < size := by
                have positive := List.length_pos_iff.mpr nonempty
                rw [← counted, same, List.length_append]
                omega
              have othersClosed : ∀ token ∈ (tokensFrom 0
                  (position.advance piece.extent) others).dropLast.getLast?,
                  token.kind = .newline :=
                fun token member => closed token (List.mem_getLast?_cons member)
              have later := inductionHypothesis _ shorter
                (position.advance piece.extent) (ends_of_append last)
                othersClosed rfl
              rw [List.append_assoc, tokensFrom_piece nonempty foundMore, later,
                split, List.cons_append, Position.advance_append]

def Position.down (lines : Nat) (position : Position) : Position :=
  ⟨position.line + lines, position.column⟩

theorem Position.down_after (lines : Nat) (position : Position) (byte : UInt8) :
    (position.down lines).after byte = (position.after byte).down lines := by
  unfold after down
  split
  · rw [Nat.add_right_comm]
  · rfl

theorem tokensFrom_down (lines covered : Nat) (position : Position)
    (source : Bytes) :
    tokensFrom covered (position.down lines) source =
      (tokensFrom covered position source).map
        (Token.relocate (Position.down lines)) := by
  induction source generalizing covered position with
  | nil => rfl
  | cons byte rest inductionHypothesis =>
      cases covered with
      | succ more =>
          rw [tokensFrom, tokensFrom, Position.down_after, inductionHypothesis]
      | zero =>
          rw [tokensFrom, tokensFrom, Position.down_after]
          cases Piece.first? (byte :: rest) with
          | none => exact inductionHypothesis 0 _
          | some piece => exact congrArg _ (inductionHypothesis _ _)

theorem placeAfter_of_newline {source : Bytes}
    (ends : source = [] ∨ source.getLast? = some newline) :
    placeAfter source = Position.start.down (source.count newline) := by
  rcases ends with rfl | last
  · rfl
  · obtain ⟨front, rfl⟩ := List.getLast?_eq_some_iff.mp last
    simp [placeAfter, Position.down, Position.start]

/--
If a text is empty or ends with a newline that is a token of its own, the tokens of a
source that begins with it are those of the text and those of what follows it, as
many lines further down as the text has.
-/
theorem tokenize_append {front : Bytes} (back : Bytes)
    (clean : front = [] ∨ front.getLast? = some newline ∧
      (tokenize front).dropLast.getLast?.map Token.kind = some .newline) :
    tokenize (front ++ back) =
      (tokenize front).dropLast ++ (tokenize back).map
        (Token.relocate (Position.down (front.count newline))) := by
  have ends : front = [] ∨ front.getLast? = some newline :=
    clean.imp_right And.left
  have closed : ∀ token ∈ (tokenize front).dropLast.getLast?,
      token.kind = .newline := by
    intro token last
    rcases clean with rfl | ⟨_, newlineLast⟩
    · cases last
    · rw [Option.mem_def.mp last] at newlineLast
      exact Option.some.inj newlineLast
  have place : Position.start.advance front = placeAfter front :=
    (placeAfter_append [] front).symm
  unfold tokenize at closed ⊢
  rw [tokensFrom_append back .start ends closed, place,
    placeAfter_of_newline ends, tokensFrom_down]

/--
Scanning can be resumed behind a text that is empty, or that ends with a newline
which is its last token before the end of file: the tokens go on with those of the
rest by itself, on lines that count the newlines of the text, in the same columns.
-/
theorem tokenize_resumed {front : Bytes} (back : Bytes)
    (clean : front = [] ∨ front.getLast? = some newline ∧
      (tokenize front).dropLast.getLast?.map Token.kind = some .newline) :
    ∃ tokens finish, tokenize front = tokens ++ [finish] ∧
      finish.kind = .endOfFile ∧
      tokenize (front ++ back) =
        tokens ++ (tokenize back).map fun token =>
          { token with
            position := ⟨token.position.line + front.count newline,
              token.position.column⟩ } := by
  obtain ⟨tokens, same, _⟩ := (tokensFrom_laid [] front).finishes
  have whole : tokenize front = tokens ++ [Token.finish (placeAfter front)] := same
  have resumed := tokenize_append back clean
  rw [whole, List.dropLast_concat] at resumed
  exact ⟨tokens, Token.finish (placeAfter front), whole, rfl, resumed⟩

/-- Newlines within a string and a comment, and then two that are tokens. -/
def brokenLines : Bytes := "s = `a\n`; /* b\n */\n// '\n"

/-- Behind them, what would close the comment is two operators, and a quote opens a
string. -/
theorem tokenize_resumed_brokenLines :
    ∃ tokens finish, tokenize brokenLines = tokens ++ [finish] ∧
      tokenize (brokenLines ++ Bytes.ofString "*/ 'c") =
        tokens ++ [⟨.arithmetic, "*", ⟨5, 1⟩⟩, ⟨.arithmetic, "/", ⟨5, 2⟩⟩,
          ⟨.string, "c", ⟨5, 4⟩⟩, ⟨.endOfFile, [], ⟨5, 6⟩⟩] := by
  have ends : brokenLines.getLast? = some newline := by
    decide +kernel
  have newlineLast :
      (tokenize brokenLines).dropLast.getLast?.map Token.kind = some .newline := by
    decide +kernel
  obtain ⟨tokens, finish, whole, _, resumed⟩ :=
    tokenize_resumed "*/ 'c" (.inr ⟨ends, newlineLast⟩)
  exact ⟨tokens, finish, whole,
    resumed.trans (congrArg (tokens ++ ·) (by decide +kernel))⟩

end ScriptAudit
