/-
The language of tokens, and how to write it. The kinds of tokens with the lexemes
they can have are described here without the scanner. The tokens of every source
are of this language, and whatever tokens of it are written down, with spaces
between them, are the tokens of the text.
-/

import ScriptAudit.Proofs.Token.Extent

namespace ScriptAudit

open Bytes

namespace Token

def booleanWords : List Bytes := ["true", "false"]

def reservedWords : List Bytes := "true" :: "false" :: "null" :: keywords

/-- The lexemes that tokens of a kind can have. -/
inductive Valid : Kind → Bytes → Prop where
  | identifier {word : Bytes} (spelled : isWord word = true)
      (unreserved : word ∉ reservedWords) : Valid .identifier word
  | integer {digits : Bytes} (nonempty : digits ≠ [])
      (whole : ∀ byte ∈ digits, isDigit byte = true) : Valid .number digits
  | decimal {digits decimals : Bytes} (nonempty : digits ≠ [])
      (whole : ∀ byte ∈ digits, isDigit byte = true)
      (fraction : ∀ byte ∈ decimals, isDigit byte = true) :
      Valid .number (digits ++ point :: decimals)
  | boolean {word : Bytes} (listed : word ∈ booleanWords) : Valid .boolean word
  | null : Valid .null "null"
  | keyword {word : Bytes} (listed : word ∈ keywords) : Valid .keyword word
  | string (text : Bytes) : Valid .string text
  | operator {operator : Operator} (listed : operator ∈ operators) :
      Valid operator.kind operator.spelling
  | punctuation {byte : UInt8} {kind : Kind}
      (listed : (byte, kind) ∈ punctuation) : Valid kind [byte]
  | unknown {byte : UInt8} (stray : isStray byte = true) :
      Valid .unknown [byte]

theorem Valid.isWord_of_identifier {kind : Kind} {lexeme : Bytes}
    (valid : Valid kind lexeme) (named : kind = .identifier) :
    isWord lexeme = true := by
  have operatorKind : ∀ operator ∈ operators, operator.kind ≠ .identifier := by
    decide
  have markKind : ∀ mark ∈ Token.punctuation, mark.2 ≠ .identifier := by
    decide
  cases valid with
  | identifier spelled _ => exact spelled
  | operator listed => exact absurd named (operatorKind _ listed)
  | punctuation listed => exact absurd named (markKind _ listed)
  | _ => cases named

def space : UInt8 := 0x20

def doubleQuote : UInt8 := 0x22

def escape (text : Bytes) : Bytes :=
  text.flatMap fun byte =>
    if byte = doubleQuote ∨ byte = backslash then [backslash, byte] else [byte]

/-- A lexeme as it is written in a source: a string between double quotes, and
anything else as it is. -/
def written (kind : Kind) (lexeme : Bytes) : Bytes :=
  if kind = .string then doubleQuote :: escape lexeme ++ [doubleQuote]
  else lexeme

def writtenAll (pairs : List (Kind × Bytes)) : Bytes :=
  [space].intercalate (pairs.map fun pair => written pair.1 pair.2)

end Token

open Token

/-! ### Scanned tokens are valid -/

theorem wordKind_valid {word : Bytes} (spelled : isWord word = true) :
    Valid (wordKind word) word := by
  unfold wordKind
  split
  · rename_i boolean
    refine .boolean ?_
    simpa [booleanWords] using boolean
  rename_i notBoolean
  split
  · rename_i null
    rw [null]
    exact .null
  rename_i notNull
  split
  · rename_i listed
    exact .keyword (List.contains_iff_mem.mp listed)
  · rename_i unlisted
    rw [List.contains_iff_mem] at unlisted
    refine .identifier spelled fun reserved => ?_
    rcases List.mem_cons.mp reserved with same | reserved
    · exact notBoolean (.inl same)
    rcases List.mem_cons.mp reserved with same | reserved
    · exact notBoolean (.inr same)
    rcases List.mem_cons.mp reserved with same | reserved
    · exact notNull same
    · exact unlisted reserved

theorem Covers.valid {kind : Token.Kind} {lexeme extent rest : Bytes}
    (covers : Covers kind lexeme extent rest)
    (significant : kind.isTrivia = false) : Valid kind lexeme := by
  cases covers with
  | newline => cases significant
  | lineComment => cases significant
  | blockComment => cases significant
  | openComment => cases significant
  | string => exact .string _
  | openString => exact .string _
  | word spelled _ => exact wordKind_valid spelled
  | integer nonempty whole _ => exact .integer nonempty whole
  | decimal nonempty whole fraction _ => exact .decimal nonempty whole fraction
  | punctuation listed => exact .punctuation listed
  | operator longest => exact .operator longest.listed
  | unknown stray => exact .unknown stray

/-- A token stands behind some bytes of the source. It ends the file, or it comes
from the piece that the rest of the source begins with. -/
theorem exists_piece_of_mem_tokensFrom {covered : Nat} {position : Position}
    {source : Bytes} {token : Token}
    (member : token ∈ tokensFrom covered position source) :
    ∃ before rest, source = before ++ rest ∧
      (rest = [] ∧ token = Token.finish (position.advance before) ∨
        ∃ piece, Piece.first? rest = some piece ∧
          token = piece.token (position.advance before)) := by
  fun_induction tokensFrom covered position source with
  | case1 covered position =>
      exact ⟨[], [], rfl, .inl ⟨rfl, List.mem_singleton.mp member⟩⟩
  | case2 position byte rest more inductionHypothesis =>
      obtain ⟨before, behind, same, origin⟩ := inductionHypothesis member
      exact ⟨byte :: before, behind, congrArg (byte :: ·) same, origin⟩
  | case3 position byte rest missing inductionHypothesis =>
      obtain ⟨before, behind, same, origin⟩ := inductionHypothesis member
      exact ⟨byte :: before, behind, congrArg (byte :: ·) same, origin⟩
  | case4 position byte rest piece found inductionHypothesis =>
      rcases List.mem_cons.mp member with rfl | later
      · exact ⟨[], byte :: rest, rfl, .inr ⟨piece, found, rfl⟩⟩
      · obtain ⟨before, behind, same, origin⟩ := inductionHypothesis later
        exact ⟨byte :: before, behind, congrArg (byte :: ·) same, origin⟩

theorem tokenize_valid {source : Bytes} {token : Token}
    (member : token ∈ tokenize source)
    (significant : token.kind.isTrivia = false)
    (unfinished : token.kind ≠ .endOfFile) : Valid token.kind token.lexeme := by
  obtain ⟨before, rest, _, origin⟩ := exists_piece_of_mem_tokensFrom member
  rcases origin with ⟨_, rfl⟩ | ⟨piece, found, rfl⟩
  · exact absurd rfl unfinished
  · obtain ⟨_, _, _, covers⟩ := first?_fits found
    exact covers.valid significant

/-! ### Written tokens are scanned -/

def Apart (text : Bytes) : Prop :=
  ∀ byte ∈ text.head?, byte = space

theorem Apart.stops {test : UInt8 → Bool} {rest : Bytes} (apart : Apart rest)
    (fails : test space = false) : ∀ byte ∈ rest.head?, test byte = false := by
  intro byte head
  rw [apart byte head, fails]

theorem prefix_of_apart {spelling text rest : Bytes} (apart : Apart rest)
    (solid : space ∉ spelling) (front : spelling <+: text ++ rest) :
    spelling <+: text := by
  rcases List.prefix_or_prefix_of_prefix front (List.prefix_append text rest) with
    inside | ⟨more, rfl⟩
  · exact inside
  have begins := (List.prefix_append_right_inj text).mp front
  cases more with
  | nil => simp
  | cons byte others =>
      obtain ⟨behind, rfl⟩ := begins
      rw [apart byte rfl] at solid
      simp at solid

theorem quotedText_escape (text rest : Bytes) :
    Piece.quotedText doubleQuote false (escape text ++ doubleQuote :: rest) =
      escape text := by
  induction text with
  | nil => rfl
  | cons byte others inductionHypothesis =>
      rw [escape, List.flatMap_cons]
      by_cases special : byte = doubleQuote ∨ byte = backslash
      · have differs : backslash ≠ doubleQuote := by decide
        rw [if_pos special]
        simp only [List.cons_append, List.nil_append, Piece.quotedText, differs,
          if_false, Bool.false_eq_true, beq_self_eq_true, if_true]
        rw [← escape, inductionHypothesis]
      · rw [not_or] at special
        rw [if_neg (not_or.mpr special)]
        simp only [List.cons_append, List.nil_append, Piece.quotedText, special.1,
          if_false, Bool.false_eq_true, beq_false_of_ne special.2]
        rw [← escape, inductionHypothesis]

theorem unescape_escape (text : Bytes) :
    Piece.unescape false (escape text) = text := by
  induction text with
  | nil => rfl
  | cons byte others inductionHypothesis =>
      rw [escape, List.flatMap_cons]
      by_cases special : byte = doubleQuote ∨ byte = backslash
      · rw [if_pos special]
        simp only [List.cons_append, List.nil_append, Piece.unescape,
          Bool.false_eq_true, if_false, if_true]
        rw [← escape, inductionHypothesis]
      · rw [not_or] at special
        rw [if_neg (not_or.mpr special)]
        simp only [List.cons_append, List.nil_append, Piece.unescape, special.2,
          Bool.false_eq_true, if_false]
        rw [← escape, inductionHypothesis]

theorem covers_string (text rest : Bytes) :
    Covers .string text (written .string text) rest := by
  have reached : Quoted doubleQuote []
      (Piece.quotedText doubleQuote false (escape text ++ doubleQuote :: rest))
      (escape text ++ doubleQuote :: rest) :=
    quoted_quotedText doubleQuote [] _
  rw [quotedText_escape] at reached
  have closes : escapes (escape text) = false := by
    rcases reached.stops with whole | ⟨_, _, closes⟩
    · simp at whole
    · exact closes
  have lexeme : withoutEscapes [] (escape text) = text := by
    rw [← unescape_eq_withoutEscapes]
    exact unescape_escape text
  have covers : Covers .string (withoutEscapes [] (escape text))
      (written .string text) rest :=
    .string rfl reached.inside closes
  rwa [lexeme] at covers

theorem covers_operator {operator : Operator} (listed : operator ∈ operators)
    {rest : Bytes} (apart : Apart rest) :
    Covers operator.kind operator.spelling operator.spelling rest := by
  obtain ⟨_, _, noLine, noBlock, found⟩ := operator_facts operator listed
  have longest := operator?_isLongest found
  refine .operator ⟨listed, List.prefix_append _ _, fun other known front => ?_⟩
    (fun front => noLine (prefix_of_apart apart (by decide) front))
    (fun front => noBlock (prefix_of_apart apart (by decide) front))
  have solid : space ∉ other.spelling := by
    intro member
    have bytes := (operator_facts other known).2.1 member
    exact absurd bytes (by decide)
  exact longest.longest other known (prefix_of_apart apart solid front)

theorem written_of_ne {kind : Token.Kind} (other : kind ≠ .string)
    (lexeme : Bytes) : written kind lexeme = lexeme :=
  if_neg other

theorem wordKind_facts :
    (∀ word ∈ booleanWords, isWord word = true ∧ wordKind word = .boolean) ∧
      (∀ word ∈ keywords, isWord word = true ∧ wordKind word = .keyword) ∧
      isWord "null" = true ∧ wordKind "null" = .null := by
  decide

theorem wordKind_of_unreserved {word : Bytes}
    (unreserved : word ∉ reservedWords) : wordKind word = .identifier := by
  simp only [reservedWords, List.mem_cons, not_or] at unreserved
  simp [wordKind, unreserved]

/-- A valid token that is written down covers what is written, with nothing or a
space behind it. -/
theorem Token.Valid.covers_written {kind : Token.Kind} {lexeme rest : Bytes}
    (valid : Valid kind lexeme) (apart : Apart rest) :
    Covers kind lexeme (written kind lexeme) rest := by
  obtain ⟨booleans, reserved, nullSpelled, nullKind⟩ := wordKind_facts
  have ends : ∀ byte ∈ rest.head?, isDigit byte = false :=
    apart.stops (by decide)
  have word {text : Bytes} (spelled : isWord text = true) :
      Covers (wordKind text) text text rest :=
    .word spelled (apart.stops (by decide))
  cases valid with
  | identifier spelled unreserved =>
      have covers := word spelled
      rwa [wordKind_of_unreserved unreserved] at covers
  | integer nonempty whole =>
      refine .integer nonempty whole fun byte head => ⟨ends byte head, ?_⟩
      rw [apart byte head]
      decide
  | decimal nonempty whole fraction => exact .decimal nonempty whole fraction ends
  | boolean listed =>
      have covers := word (booleans _ listed).1
      rwa [(booleans _ listed).2] at covers
  | null =>
      have covers := word nullSpelled
      rwa [nullKind] at covers
  | keyword listed =>
      have covers := word (reserved _ listed).1
      rwa [(reserved _ listed).2] at covers
  | string => exact covers_string lexeme rest
  | @operator operator listed =>
      have other : ∀ operator ∈ operators, operator.kind ≠ .string := by decide
      rw [written_of_ne (other operator listed)]
      exact covers_operator listed apart
  | @punctuation byte _ listed =>
      have other : ∀ entry ∈ Token.punctuation, entry.2 ≠ .string := by decide
      rw [written_of_ne (other _ listed)]
      exact .punctuation listed
  | unknown stray => exact .unknown stray

def Token.content (token : Token) : Token.Kind × Bytes :=
  (token.kind, token.lexeme)

theorem tokensFrom_written {kind : Token.Kind} {lexeme rest : Bytes}
    (valid : Valid kind lexeme) (apart : Apart rest) (position : Position) :
    tokensFrom 0 position (written kind lexeme ++ rest) =
      ⟨kind, lexeme, position⟩ ::
        tokensFrom 0 (position.advance (written kind lexeme)) rest := by
  have found := (valid.covers_written apart).first?_eq
  have nonempty := (first?_fits found).1
  exact tokensFrom_piece nonempty found

theorem tokensFrom_writtenAll {pairs : List (Token.Kind × Bytes)}
    (valid : ∀ pair ∈ pairs, Valid pair.1 pair.2) (position : Position) :
    (tokensFrom 0 position (writtenAll pairs)).map Token.content =
      pairs ++ [(.endOfFile, [])] := by
  induction pairs generalizing position with
  | nil => rfl
  | cons pair others inductionHypothesis =>
      obtain ⟨first, later⟩ := List.forall_mem_cons.mp valid
      cases others with
      | nil =>
          have apart : Apart [] := nofun
          have single : writtenAll [pair] = written pair.1 pair.2 ++ [] := by
            simp [writtenAll]
          rw [single, tokensFrom_written first apart]
          rfl
      | cons next rest =>
          have apart : Apart (space :: writtenAll (next :: rest)) := by
            intro byte head
            exact (Option.some.inj head).symm
          have split : writtenAll (pair :: next :: rest) =
              written pair.1 pair.2 ++ space :: writtenAll (next :: rest) := by
            simp [writtenAll, List.intercalate_cons_cons]
          have skipped (place : Position) :
              tokensFrom 0 place (space :: writtenAll (next :: rest)) =
                tokensFrom 0 (place.after space) (writtenAll (next :: rest)) :=
            rfl
          rw [split, tokensFrom_written first apart, skipped, List.map_cons,
            inductionHypothesis later]
          rfl

/--
The scanner's language is exactly that of the valid tokens: every token of a source
that carries meaning is valid, and valid tokens that are written with single
spaces between them are the tokens of the text, before the end-of-file token.
-/
theorem tokenize_language :
    (∀ source, ∀ token ∈ tokenize source, token.kind.isTrivia = false →
        token.kind ≠ .endOfFile → Valid token.kind token.lexeme) ∧
      ∀ pairs : List (Token.Kind × Bytes),
        (∀ pair ∈ pairs, Valid pair.1 pair.2) →
          (tokenize (writtenAll pairs)).map Token.content =
            pairs ++ [(.endOfFile, [])] := by
  constructor
  · intro source token member significant unfinished
    exact tokenize_valid member significant unfinished
  · intro pairs valid
    exact tokensFrom_writtenAll valid .start

/-- Tokens that would be read otherwise without the spaces and escapes. -/
def tellingTokens : List (Token.Kind × Bytes) :=
  [(.number, "1."), (.arithmetic, "/"), (.arithmetic, "/"), (.string, "\"\\")]

/-- Two slashes do not become a comment, and a string keeps its quote and its
backslash. -/
theorem tokenize_language_tellingTokens :
    (tokenize "1. / / \"\\\"\\\\\"").map Token.content =
      tellingTokens ++ [(.endOfFile, [])] := by
  obtain ⟨scanned, written⟩ := tokenize_language
  have number : Valid .number "1." :=
    scanned "1." ⟨.number, "1.", .start⟩ (by decide +kernel) rfl (by decide)
  have division : Valid .arithmetic "/" :=
    @Valid.operator ⟨"/", .arithmetic⟩ (by decide)
  have valid : ∀ pair ∈ tellingTokens, Valid pair.1 pair.2 := by
    simp only [tellingTokens, List.forall_mem_cons]
    exact ⟨number, division, division, .string _, nofun⟩
  have text : writtenAll tellingTokens = "1. / / \"\\\"\\\\\"" := by
    decide +kernel
  rw [← text]
  exact written tellingTokens valid

end ScriptAudit
