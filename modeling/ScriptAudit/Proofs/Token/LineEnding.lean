/-
Line endings. A carriage return before every newline of a source changes neither
what is read from it nor where it stands, as long as no string runs over the end
of a line. The return is a blank, or the last byte of a comment, or one within a
comment, and the newline after it sets the column back in any case.
-/

import ScriptAudit.Audit.Basic
import ScriptAudit.Grammar.Program
import ScriptAudit.Proofs.Token.Resumption

namespace ScriptAudit

namespace Bytes

def carriageReturn : UInt8 := 0x0d

def withReturns (text : Bytes) : Bytes :=
  text.flatMap fun byte =>
    if byte = newline then [carriageReturn, newline] else [byte]

@[simp] theorem withReturns_nil : withReturns [] = [] :=
  rfl

@[simp] theorem withReturns_newline (rest : Bytes) :
    withReturns (newline :: rest) =
      carriageReturn :: newline :: withReturns rest :=
  rfl

theorem withReturns_cons {byte : UInt8} (other : byte ≠ newline) (rest : Bytes) :
    withReturns (byte :: rest) = byte :: withReturns rest := by
  rw [withReturns, List.flatMap_cons, if_neg other]
  rfl

theorem withReturns_append (front back : Bytes) :
    withReturns (front ++ back) = withReturns front ++ withReturns back :=
  List.flatMap_append

theorem withReturns_eq_self {text : Bytes} (oneLine : newline ∉ text) :
    withReturns text = text := by
  induction text with
  | nil => rfl
  | cons byte rest inductionHypothesis =>
      rw [List.mem_cons, not_or] at oneLine
      rw [withReturns_cons (Ne.symm oneLine.1), inductionHypothesis oneLine.2]

theorem head?_withReturns (byte : UInt8) (text : Bytes)
    (notNewline : byte ≠ newline := by decide)
    (notReturn : byte ≠ carriageReturn := by decide) :
    (withReturns text).head? = some byte ↔ text.head? = some byte := by
  cases text with
  | nil => rfl
  | cons first rest =>
      by_cases ends : first = newline
      · rw [ends, withReturns_newline, List.head?_cons, List.head?_cons,
          Option.some_inj, Option.some_inj]
        exact ⟨fun same => absurd same.symm notReturn,
          fun same => absurd same.symm notNewline⟩
      · rw [withReturns_cons ends, List.head?_cons, List.head?_cons]

section Scans

variable {test : UInt8 → Bool} (stops : test newline = false)
  (stopsBefore : test carriageReturn = false)

include stops stopsBefore

theorem takeWhile_withReturns (text : Bytes) :
    (withReturns text).takeWhile test = text.takeWhile test := by
  induction text with
  | nil => rfl
  | cons byte rest inductionHypothesis =>
      by_cases ends : byte = newline
      · rw [ends, withReturns_newline,
          List.takeWhile_cons_of_neg (ne_true_of_eq_false stopsBefore),
          List.takeWhile_cons_of_neg (ne_true_of_eq_false stops)]
      · rw [withReturns_cons ends, List.takeWhile_cons, List.takeWhile_cons,
          inductionHypothesis]

theorem dropWhile_withReturns (text : Bytes) :
    (withReturns text).dropWhile test = withReturns (text.dropWhile test) := by
  induction text with
  | nil => rfl
  | cons byte rest inductionHypothesis =>
      by_cases ends : byte = newline
      · rw [ends, withReturns_newline,
          List.dropWhile_cons_of_neg (ne_true_of_eq_false stopsBefore),
          List.dropWhile_cons_of_neg (ne_true_of_eq_false stops)]
        rfl
      · rw [withReturns_cons ends, List.dropWhile_cons, List.dropWhile_cons,
          inductionHypothesis]
        split
        · rfl
        · exact (withReturns_cons ends rest).symm

end Scans

theorem isPrefixOf_withReturns {spelling : Bytes}
    (oneLine : newline ∉ spelling) (noReturn : carriageReturn ∉ spelling)
    (text : Bytes) :
    spelling.isPrefixOf (withReturns text) = spelling.isPrefixOf text := by
  induction spelling generalizing text with
  | nil => rfl
  | cons byte others inductionHypothesis =>
      rw [List.mem_cons, not_or] at oneLine noReturn
      cases text with
      | nil => rfl
      | cons first rest =>
          by_cases ends : first = newline
          · rw [ends, withReturns_newline, List.isPrefixOf_cons_cons,
              List.isPrefixOf_cons_cons, beq_false_of_ne (Ne.symm oneLine.1),
              beq_false_of_ne (Ne.symm noReturn.1)]
            rfl
          · rw [withReturns_cons ends, List.isPrefixOf_cons_cons,
              List.isPrefixOf_cons_cons,
              inductionHypothesis oneLine.2 noReturn.2]

end Bytes

/-- The newline takes back what the carriage return added to the column. -/
theorem Position.advance_withReturns (position : Position) (text : Bytes) :
    position.advance (Bytes.withReturns text) = position.advance text := by
  induction text generalizing position with
  | nil => rfl
  | cons byte rest inductionHypothesis =>
      by_cases ends : byte = Bytes.newline
      · rw [ends, Bytes.withReturns_newline, advance_cons, advance_cons,
          advance_cons, inductionHypothesis]
        rfl
      · rw [Bytes.withReturns_cons ends, advance_cons, advance_cons,
          inductionHypothesis]

open Bytes

/-! ### Pieces -/

namespace Piece

theorem word_withReturns (source : Bytes) :
    word (withReturns source) = word source := by
  unfold word
  rw [takeWhile_withReturns (by decide) (by decide)]

theorem fractionalText_withReturns (source : Bytes) :
    fractionalText (withReturns source) = fractionalText source := by
  cases source with
  | nil => rfl
  | cons byte rest =>
      by_cases ends : byte = newline
      · rw [ends]
        rfl
      · rw [withReturns_cons ends, fractionalText, fractionalText,
          takeWhile_withReturns (by decide) (by decide)]

theorem number_withReturns (source : Bytes) :
    number (withReturns source) = number source := by
  unfold number
  rw [takeWhile_withReturns (by decide) (by decide),
    dropWhile_withReturns (by decide) (by decide), fractionalText_withReturns]

theorem symbol_withReturns {byte : UInt8} (inner : byte ≠ newline)
    (rest : Bytes) : symbol byte (withReturns rest) = symbol byte rest := by
  have plain : ∀ operator ∈ Token.operators, newline ∉ operator.spelling ∧
      carriageReturn ∉ operator.spelling := by
    decide
  have same : Token.operator? (byte :: withReturns rest) =
      Token.operator? (byte :: rest) := by
    rw [← withReturns_cons inner]
    unfold Token.operator?
    rw [← List.head?_filter, ← List.head?_filter]
    congr 1
    apply List.filter_congr
    intro operator listed
    obtain ⟨oneLine, noReturn⟩ := plain operator listed
    exact isPrefixOf_withReturns oneLine noReturn (byte :: rest)
  unfold symbol
  rw [same]

theorem enclosedText_withReturns (source : Bytes) :
    enclosedText (withReturns source) = withReturns (enclosedText source) := by
  induction source with
  | nil => rfl
  | cons byte rest inductionHypothesis =>
      by_cases ends : byte = newline
      · have open_ : newline ≠ asterisk := by decide
        have before : carriageReturn ≠ asterisk := by decide
        rw [ends, withReturns_newline]
        simp only [enclosedText, open_, before, false_and, if_false,
          inductionHypothesis, withReturns_newline]
      · rw [withReturns_cons ends, enclosedText, enclosedText,
          inductionHypothesis]
        have closes := head?_withReturns slash rest
        by_cases marker : byte = asterisk ∧ rest.head? = some slash
        · rw [if_pos marker, if_pos ⟨marker.1, closes.mpr marker.2⟩]
          rfl
        · rw [if_neg marker, if_neg fun both => marker ⟨both.1, closes.mp both.2⟩]
          exact (withReturns_cons ends _).symm

theorem extent_blockComment_closed {source rest : Bytes}
    (same : source = enclosedText source ++ asterisk :: slash :: rest) :
    (blockComment source).extent =
      slash :: asterisk :: (enclosedText source ++ [asterisk, slash]) := by
  simp only [blockComment, drop_length_of_eq same, List.take_succ_cons,
    List.take_zero]
  rfl

theorem extent_blockComment_withReturns (source : Bytes) :
    (blockComment (withReturns source)).extent =
      withReturns (blockComment source).extent := by
  have text := enclosedText_withReturns source
  have marker (rest : Bytes) : withReturns (slash :: asterisk :: rest) =
      slash :: asterisk :: withReturns rest :=
    rfl
  rcases enclosedText_stops source with same | ⟨rest, same⟩
  · have whole : withReturns source = enclosedText (withReturns source) := by
      rw [text, ← same]
    rw [extent_blockComment same, extent_blockComment whole, marker]
  · have whole : withReturns source = enclosedText (withReturns source)
        ++ asterisk :: slash :: withReturns rest := by
      rw [text]
      exact (congrArg withReturns same).trans (withReturns_append _ _)
    rw [extent_blockComment_closed same, extent_blockComment_closed whole, marker,
      withReturns_append, text]
    rfl

theorem quotedText_withReturns {quote : UInt8} (inner : quote ≠ newline)
    {escaped : Bool} {source : Bytes}
    (oneLine : newline ∉ quotedText quote escaped source) :
    quotedText quote escaped (withReturns source) =
      quotedText quote escaped source := by
  induction source generalizing escaped with
  | nil => rfl
  | cons byte rest inductionHypothesis =>
      have ends : byte ≠ newline := by
        rintro rfl
        apply oneLine
        rw [quotedText]
        split
        · exact List.mem_cons_self
        · rw [if_neg (Ne.symm inner)]
          exact List.mem_cons_self
      rw [quotedText] at oneLine
      rw [withReturns_cons ends, quotedText, quotedText]
      by_cases covered : escaped = true
      · rw [if_pos covered] at oneLine
        rw [if_pos covered, if_pos covered,
          inductionHypothesis (List.not_mem_of_not_mem_cons oneLine)]
      rw [if_neg covered] at oneLine
      rw [if_neg covered, if_neg covered]
      by_cases closes : byte = quote
      · rw [if_pos closes, if_pos closes]
      · rw [if_neg closes] at oneLine
        rw [if_neg closes, if_neg closes,
          inductionHypothesis (List.not_mem_of_not_mem_cons oneLine)]

theorem newline_mem_unescape {escaped : Bool} {text : Bytes}
    (inside : newline ∈ text) : newline ∈ unescape escaped text := by
  induction text generalizing escaped with
  | nil => cases inside
  | cons byte rest inductionHypothesis =>
      rw [unescape]
      rcases List.mem_cons.mp inside with rfl | later
      · split
        · exact List.mem_cons_self
        · exact List.mem_cons_self
      · split
        · exact List.mem_cons_of_mem byte (inductionHypothesis later)
        split
        · exact inductionHypothesis later
        · exact List.mem_cons_of_mem byte (inductionHypothesis later)

theorem extent_quoted_closed {quote : UInt8} {source rest : Bytes}
    (same : source = quotedText quote false source ++ quote :: rest) :
    (quoted quote source).extent =
      quote :: (quotedText quote false source ++ [quote]) := by
  simp only [quoted, drop_length_of_eq same, List.take_succ_cons, List.take_zero]
  rfl

theorem quoted_withReturns {quote : UInt8} (inner : quote ≠ newline)
    {source : Bytes} (oneLine : newline ∉ (quoted quote source).lexeme) :
    quoted quote (withReturns source) = quoted quote source ∧
      newline ∉ (quoted quote source).extent := by
  have plain : newline ∉ quotedText quote false source :=
    fun inside => oneLine (newline_mem_unescape inside)
  have text := quotedText_withReturns inner plain
  rcases (quoted_quotedText quote [] source).stops with same | ⟨rest, same, _⟩
  · change source = quotedText quote false source at same
    rw [← same] at plain
    rw [withReturns_eq_self plain, extent_quoted same, List.mem_cons, not_or]
    exact ⟨rfl, Ne.symm inner, plain⟩
  · change source = quotedText quote false source ++ quote :: rest at same
    have whole : withReturns source =
        quotedText quote false source ++ quote :: withReturns rest := by
      rw [congrArg withReturns same, withReturns_append,
        withReturns_eq_self plain, withReturns_cons inner]
    constructor
    · simp only [quoted, text, drop_length_of_eq same, drop_length_of_eq whole,
        List.take_succ_cons, List.take_zero]
    · rw [extent_quoted_closed same, List.mem_cons, List.mem_append,
        List.mem_singleton, not_or, not_or]
      exact ⟨Ne.symm inner, plain, Ne.symm inner⟩

theorem newline_not_mem_takeWhile {test : UInt8 → Bool}
    (stops : test newline = false) (text : Bytes) :
    newline ∉ text.takeWhile test := by
  intro inside
  have passes := List.all_eq_true.mp List.all_takeWhile _ inside
  rw [stops] at passes
  cases passes

theorem newline_not_mem_number (source : Bytes) :
    newline ∉ (number source).extent := by
  have whole : newline ∉ source.takeWhile isDigit :=
    newline_not_mem_takeWhile (by decide) source
  have fraction : newline ∉ fractionalText (source.dropWhile isDigit) := by
    cases source.dropWhile isDigit with
    | nil => exact List.not_mem_nil
    | cons byte rest =>
        rw [fractionalText]
        split
        · rename_i pointed
          rw [pointed, List.mem_cons, not_or]
          exact ⟨by decide, newline_not_mem_takeWhile (by decide) rest⟩
        · exact List.not_mem_nil
  exact fun inside => (List.mem_append.mp inside).elim whole fraction

theorem newline_not_mem_symbol {byte : UInt8} (inner : byte ≠ newline)
    (rest : Bytes) : newline ∉ (symbol byte rest).extent := by
  have single : newline ∉ [byte] := by
    rw [List.mem_singleton]
    exact Ne.symm inner
  have plain : ∀ operator ∈ Token.operators, newline ∉ operator.spelling := by
    decide
  unfold symbol
  split
  · exact single
  split
  · rename_i operator found
    exact plain operator (Token.operator?_eq_some found).1
  · exact single

/-- What a piece becomes when its newlines get carriage returns: a comment may
read differently, and everything else stays as it is. -/
structure Returns (piece other : Piece) : Prop where
  kind : other.kind = piece.kind
  extent : other.extent = withReturns piece.extent
  lexeme : piece.kind.isTrivia = false → other.lexeme = piece.lexeme

theorem Returns.self {piece : Piece} (oneLine : newline ∉ piece.extent) :
    Returns piece piece :=
  { kind := rfl
    extent := (withReturns_eq_self oneLine).symm
    lexeme := fun _ => rfl }

/-- Apart from newlines and comments up to them, the first piece of a source
ends before the line does or takes the carriage returns in. -/
theorem first?_withReturns {byte : UInt8} {rest : Bytes} {piece : Piece}
    (inner : byte ≠ newline)
    (notLine : ¬(byte = slash ∧ rest.head? = some slash))
    (found : first? (byte :: rest) = some piece)
    (oneLine : piece.kind = .string → newline ∉ piece.lexeme) :
    ∃ other, first? (withReturns (byte :: rest)) = some other ∧
      Returns piece other := by
  have opensLine := head?_withReturns slash rest
  have opensBlock := head?_withReturns asterisk rest
  rw [first?] at found
  rw [withReturns_cons inner, first?]
  by_cases blank : isBlank byte = true
  · rw [if_pos blank] at found
    cases found
  rw [if_neg blank, if_neg inner, if_neg notLine] at found
  rw [if_neg blank, if_neg inner,
    if_neg fun both => notLine ⟨both.1, opensLine.mp both.2⟩]
  by_cases marker : byte = slash ∧ rest.head? = some asterisk
  · rw [if_pos marker] at found
    rw [if_pos ⟨marker.1, opensBlock.mpr marker.2⟩]
    obtain ⟨others, rfl⟩ := List.head?_eq_some_iff.mp marker.2
    cases found
    refine ⟨_, rfl, rfl, extent_blockComment_withReturns others, ?_⟩
    intro significant
    cases significant
  rw [if_neg marker] at found
  rw [if_neg fun both => marker ⟨both.1, opensBlock.mp both.2⟩]
  by_cases opens : isQuote byte = true
  · rw [if_pos opens] at found
    rw [if_pos opens]
    cases found
    obtain ⟨same, plain⟩ := quoted_withReturns inner (oneLine rfl)
    rw [same]
    exact ⟨_, rfl, .self plain⟩
  rw [if_neg opens] at found
  rw [if_neg opens, ← withReturns_cons inner]
  by_cases digit : isDigit byte = true
  · rw [if_pos digit] at found
    rw [if_pos digit, number_withReturns]
    cases found
    exact ⟨_, rfl, .self (newline_not_mem_number _)⟩
  rw [if_neg digit] at found
  rw [if_neg digit]
  by_cases starts : Token.isWordStart byte = true
  · rw [if_pos starts] at found
    rw [if_pos starts, word_withReturns]
    cases found
    exact ⟨_, rfl, .self (newline_not_mem_takeWhile (by decide) _)⟩
  · rw [if_neg starts] at found
    rw [if_neg starts, symbol_withReturns inner]
    cases found
    exact ⟨_, rfl, .self (newline_not_mem_symbol inner rest)⟩

end Piece

/-! ### Significant tokens -/

def StringsOnOneLine (tokens : List Token) : Prop :=
  ∀ token ∈ tokens, token.kind = .string → newline ∉ token.lexeme

def significantFrom (position : Position) (source : Bytes) : List Token :=
  (tokensFrom 0 position source).filter fun token => !token.kind.isTrivia

theorem tokensFrom_lineComment {line : Bytes} (oneLine : newline ∉ line)
    (rest : Bytes) (position : Position) :
    ∃ comment : Token, comment.kind = .comment ∧
      tokensFrom 0 position (slash :: slash :: line ++ newline :: rest) =
        comment :: tokensFrom 0 (position.advance (slash :: slash :: line))
          (newline :: rest) := by
  have inner : ∀ byte ∈ line, (byte != newline) = true := by
    intro byte member
    rw [bne_iff_ne]
    rintro rfl
    exact oneLine member
  have text : (line ++ newline :: rest).takeWhile (· != newline) = line := by
    rw [List.takeWhile_append_of_pos inner]
    exact List.append_nil line
  have extent : (Piece.lineComment (line ++ newline :: rest)).extent =
      slash :: slash :: line := by
    rw [Piece.lineComment, text]
  have found : Piece.first? ((Piece.lineComment (line ++ newline :: rest)).extent
      ++ newline :: rest) = some (.lineComment (line ++ newline :: rest)) := by
    rw [extent]
    rfl
  have tokens := @tokensFrom_piece position _ _ (first?_fits found).1 found
  rw [extent] at tokens
  exact ⟨_, rfl, tokens⟩

theorem significantFrom_piece {piece : Piece} {rest : Bytes}
    (found : Piece.first? (piece.extent ++ rest) = some piece)
    (position : Position) :
    significantFrom position (piece.extent ++ rest) =
      [piece.token position].filter (fun token => !token.kind.isTrivia)
        ++ significantFrom (position.advance piece.extent) rest := by
  rw [significantFrom, tokensFrom_piece (first?_fits found).1 found,
    ← List.singleton_append, List.filter_append]
  rfl

theorem significantFrom_lineComment {line : Bytes} (oneLine : newline ∉ line)
    (rest : Bytes) (position : Position) :
    significantFrom position (slash :: slash :: line ++ newline :: rest) =
      significantFrom
        (position.advance (slash :: slash :: line ++ [newline])) rest := by
  obtain ⟨comment, kind, tokens⟩ := tokensFrom_lineComment oneLine rest position
  have trivial : ¬(!comment.kind.isTrivia) = true := by
    rw [kind]
    decide
  rw [significantFrom, tokens, List.filter_cons, if_neg trivial,
    Position.advance_append]
  rfl

/-- Carriage returns leave the significant tokens of a source as they are,
wherever it begins. -/
def Unaltered (source : Bytes) : Prop :=
  ∀ position, StringsOnOneLine (tokensFrom 0 position source) →
    significantFrom position (withReturns source) =
      significantFrom position source

namespace Unaltered

variable {rest : Bytes} (later : Unaltered rest)

include later

theorem afterNewline : Unaltered (newline :: rest) := by
  intro position strings
  have strings : StringsOnOneLine (tokensFrom 0 (position.after newline) rest) :=
    (List.forall_mem_cons.mp strings).2
  exact later (position.after newline) strings

theorem afterBlank {byte : UInt8} (blank : Piece.isBlank byte = true)
    (inner : byte ≠ newline) : Unaltered (byte :: rest) := by
  intro position strings
  rw [tokensFrom_blank blank] at strings
  have same := later (position.after byte) strings
  unfold significantFrom at same ⊢
  rw [withReturns_cons inner, tokensFrom_blank blank, tokensFrom_blank blank, same]

/-- The carriage return is the last byte of the comment, and the newline is a
token of its own in both texts. -/
theorem afterComment {line : Bytes} (oneLine : newline ∉ line) :
    Unaltered (slash :: slash :: line ++ newline :: rest) := by
  intro position strings
  have returned : newline ∉ line ++ [carriageReturn] := by
    rw [List.mem_append, List.mem_singleton, not_or]
    exact ⟨oneLine, by decide⟩
  have split (others : Bytes) :
      withReturns (slash :: slash :: line ++ newline :: others) =
        slash :: slash :: (line ++ [carriageReturn])
          ++ newline :: withReturns others := by
    rw [withReturns_append, withReturns_cons (by decide),
      withReturns_cons (by decide), withReturns_eq_self oneLine,
      withReturns_newline]
    simp
  have place : position.advance
        (slash :: slash :: (line ++ [carriageReturn]) ++ [newline]) =
      position.advance (slash :: slash :: line ++ [newline]) := by
    rw [← Position.advance_withReturns _ (slash :: slash :: line ++ [newline]),
      split, withReturns_nil]
  obtain ⟨comment, _, tokens⟩ := tokensFrom_lineComment oneLine rest position
  rw [tokens] at strings
  have inner : StringsOnOneLine (tokensFrom 0
      (position.advance (slash :: slash :: line ++ [newline])) rest) := by
    rw [Position.advance_append]
    exact (List.forall_mem_cons.mp (List.forall_mem_cons.mp strings).2).2
  rw [split, significantFrom_lineComment returned,
    significantFrom_lineComment oneLine, place, later _ inner]

theorem afterPiece {piece : Piece}
    (found : Piece.first? (piece.extent ++ rest) = some piece)
    (returns : (piece.kind = .string → newline ∉ piece.lexeme) →
      ∃ other, Piece.first? (withReturns (piece.extent ++ rest)) = some other ∧
        Piece.Returns piece other) :
    Unaltered (piece.extent ++ rest) := by
  intro position strings
  rw [tokensFrom_piece (first?_fits found).1 found] at strings
  obtain ⟨first, inner⟩ := List.forall_mem_cons.mp strings
  obtain ⟨other, foundReturns, kind, extent, lexeme⟩ := returns first
  have place : position.advance other.extent = position.advance piece.extent := by
    rw [extent, Position.advance_withReturns]
  rw [withReturns_append, ← extent] at foundReturns ⊢
  rw [significantFrom_piece foundReturns, significantFrom_piece found, place,
    later _ inner]
  congr 1
  cases trivia : piece.kind.isTrivia with
  | true => simp [Piece.token, kind, trivia]
  | false => simp [Piece.token, kind, lexeme trivia]

end Unaltered

theorem unaltered (source : Bytes) : Unaltered source := by
  induction counted : source.length using Nat.strongRecOn
    generalizing source with
  | ind size inductionHypothesis =>
      cases source with
      | nil => exact fun _ _ => rfl
      | cons byte rest =>
          have later : Unaltered rest :=
            inductionHypothesis rest.length (counted ▸ Nat.lt_succ_self _) rest rfl
          by_cases ends : byte = newline
          · rw [ends]
            exact later.afterNewline
          by_cases slashes : byte = slash ∧ rest.head? = some slash
          · obtain ⟨rfl, next⟩ := slashes
            obtain ⟨text, rfl⟩ := List.head?_eq_some_iff.mp next
            -- The comment takes the carriage return in; the newline goes along.
            by_cases inside : newline ∈ text
            · obtain ⟨line, others, rfl, oneLine⟩ :=
                List.eq_append_cons_of_mem inside
              have shorter : others.length < size := by
                simp only [List.length_cons, List.length_append] at counted
                omega
              exact (inductionHypothesis _ shorter others rfl).afterComment oneLine
            · have oneLine : newline ∉ slash :: slash :: text := by
                simp only [List.mem_cons, not_or]
                exact ⟨by decide, by decide, inside⟩
              intro position _
              rw [withReturns_eq_self oneLine]
          cases found : Piece.first? (byte :: rest) with
          | none => exact later.afterBlank (isBlank_of_first?_eq_none found) ends
          | some piece =>
              obtain ⟨nonempty, others, same, _⟩ := first?_fits found
              have returns := Piece.first?_withReturns ends slashes found
              rw [same] at found returns ⊢
              have shorter : others.length < size := by
                have positive := List.length_pos_iff.mpr nonempty
                rw [← counted, same, List.length_append]
                omega
              exact (inductionHypothesis _ shorter others rfl).afterPiece found returns

theorem parse_eq_of_significant {source other : Bytes}
    (same : significant source = significant other) :
    parse source = parse other := by
  have stream : Token.Stream.ofTokens (tokenize source) =
      Token.Stream.ofTokens (tokenize other) := by
    unfold significant at same
    unfold Token.Stream.ofTokens
    rw [same]
  rw [parse, parseTokens, stream]
  rfl

/--
If no string runs over the end of a line, then a carriage return before every
newline changes nothing in what is read from a source: neither the program nor
the diagnostics, places and words included, nor what the audit finds.
-/
theorem parse_withReturns (source : Bytes)
    (oneLine : StringsOnOneLine (tokenize source)) :
    (parse (withReturns source)).program = (parse source).program ∧
      (parse (withReturns source)).diagnostics = (parse source).diagnostics ∧
      audit (parse (withReturns source)).program =
        audit (parse source).program := by
  have same := parse_eq_of_significant (unaltered source .start oneLine)
  rw [same]
  exact ⟨rfl, rfl, rfl⟩

/-- Carriage returns at the end of one comment and within another. -/
theorem parse_withReturns_comments :
    (parse "a // b\r\n/* c\r\n */ )").diagnostics =
      [{ problem := .unexpected, found := ⟨.rightParen, ")", ⟨3, 5⟩⟩ }] := by
  have oneLine : StringsOnOneLine (tokenize "a // b\n/* c\n */ )") := by
    unfold StringsOnOneLine
    decide +kernel
  have text : withReturns "a // b\n/* c\n */ )" =
      Bytes.ofString "a // b\r\n/* c\r\n */ )" := by
    decide +kernel
  obtain ⟨_, diagnostics, _⟩ := parse_withReturns _ oneLine
  rw [text] at diagnostics
  exact diagnostics.trans (by decide +kernel)

end ScriptAudit
