/-
Coverings: which bytes a token covers. The bytes of a token and the bytes after them
are described here without the scanner, one sort of token at a time. What the scanner
takes off a source is covered in this way, and nothing else is: it takes off whatever
is covered at the front of the source. So the bytes that a token covers determine its
kind and its lexeme.
-/

import ScriptAudit.Proofs.Token.Delimited
import ScriptAudit.Proofs.Token.Vocabulary

namespace ScriptAudit

open Bytes

/--
`Covers kind lexeme extent rest`: an extent, with the bytes that follow it up to
the end of the source, and the kind and lexeme of its token.
-/
inductive Covers : Token.Kind → Bytes → Bytes → Bytes → Prop where
  | newline {rest : Bytes} : Covers .newline "\\n" [newline] rest
  | string {quote : UInt8} {body rest : Bytes}
      (opens : Piece.isQuote quote = true) (inside : OnlyEscaped quote body)
      (closes : escapes body = false) :
      Covers .string (withoutEscapes [] body) (quote :: body ++ [quote]) rest
  | openString {quote : UInt8} {body : Bytes}
      (opens : Piece.isQuote quote = true) (inside : OnlyEscaped quote body) :
      Covers .string (withoutEscapes [] body) (quote :: body) []
  | lineComment {text lexeme rest : Bytes} (oneLine : newline ∉ text)
      (ends : ∀ byte ∈ rest.head?, byte = newline)
      (trimmed : Trims text lexeme) :
      Covers .comment lexeme (slash :: slash :: text) rest
  | blockComment {text lexeme rest : Bytes} (first : ClosesFirst text rest)
      (trimmed : Trims text lexeme) :
      Covers .comment lexeme
        (slash :: asterisk :: text ++ [asterisk, slash]) rest
  | openComment {text lexeme : Bytes} (unclosed : Unclosed text)
      (trimmed : Trims text lexeme) :
      Covers .comment lexeme (slash :: asterisk :: text) []
  | word {text rest : Bytes} (spelled : Token.isWord text = true)
      (ends : ∀ byte ∈ rest.head?, Token.isWordPart byte = false) :
      Covers (Token.wordKind text) text text rest
  | integer {digits rest : Bytes} (nonempty : digits ≠ [])
      (whole : ∀ byte ∈ digits, isDigit byte = true)
      (ends : ∀ byte ∈ rest.head?, isDigit byte = false ∧ byte ≠ point) :
      Covers .number digits digits rest
  | decimal {digits decimals rest : Bytes} (nonempty : digits ≠ [])
      (whole : ∀ byte ∈ digits, isDigit byte = true)
      (fraction : ∀ byte ∈ decimals, isDigit byte = true)
      (ends : ∀ byte ∈ rest.head?, isDigit byte = false) :
      Covers .number (digits ++ point :: decimals)
        (digits ++ point :: decimals) rest
  | punctuation {byte : UInt8} {kind : Token.Kind} {rest : Bytes}
      (listed : (byte, kind) ∈ Token.punctuation) :
      Covers kind [byte] [byte] rest
  | operator {operator : Token.Operator} {rest : Bytes}
      (longest : operator.IsLongest (operator.spelling ++ rest))
      (noLine : ¬[slash, slash] <+: operator.spelling ++ rest)
      (noBlock : ¬[slash, asterisk] <+: operator.spelling ++ rest) :
      Covers operator.kind operator.spelling operator.spelling rest
  | unknown {byte : UInt8} {rest : Bytes} (stray : Token.isStray byte = true) :
      Covers .unknown [byte] [byte] rest

def Piece.Fits (piece : Piece) (source : Bytes) : Prop :=
  piece.extent ≠ [] ∧ ∃ rest, source = piece.extent ++ rest ∧
    Covers piece.kind piece.lexeme piece.extent rest

/-! ### What is taken off is covered -/

theorem drop_length_of_eq {source text rest : Bytes}
    (same : source = text ++ rest) : source.drop text.length = rest := by
  rw [same, List.drop_left]

section Pieces

variable (source : Bytes)

theorem lineComment_fits :
    (Piece.lineComment source).Fits (slash :: slash :: source) := by
  refine ⟨List.cons_ne_nil _ _, source.dropWhile (· != newline), ?_, ?_⟩
  · exact congrArg (fun text => slash :: slash :: text)
      List.takeWhile_append_dropWhile.symm
  · refine .lineComment ?_ ?_ (trims_trim _)
    · intro member
      have other := List.all_eq_true.mp List.all_takeWhile _ member
      exact absurd rfl (bne_iff_ne.mp other)
    · intro byte member
      have stops := head?_dropWhile_fails (· != newline) source byte member
      simpa using stops

theorem blockComment_fits :
    (Piece.blockComment source).Fits (slash :: asterisk :: source) := by
  refine ⟨List.cons_ne_nil _ _, ?_⟩
  have trimmed := trims_trim (Piece.enclosedText source)
  rcases enclosedText_stops source with same | ⟨others, same⟩
  · have drop := drop_length_of_eq (same.trans (List.append_nil _).symm)
    refine ⟨[], ?_, ?_⟩
    · simp only [Piece.blockComment, drop, List.take_nil, List.append_nil]
      rw [← same]
    · simp only [Piece.blockComment, drop, List.take_nil, List.append_nil]
      refine .openComment (fun front back inside => ?_) trimmed
      have bound := length_enclosedText_le (same.trans inside)
      rw [inside, List.length_append, List.length_cons] at bound
      omega
  · have drop := drop_length_of_eq same
    refine ⟨others, ?_, ?_⟩
    · simp only [Piece.blockComment, drop, List.cons_append,
        List.append_assoc, List.take_succ_cons, List.take_zero, List.nil_append]
      rw [← same]
    · simp only [Piece.blockComment, drop, List.take_succ_cons, List.take_zero]
      refine .blockComment (fun front back inside => ?_) trimmed
      exact length_enclosedText_le (same.trans inside)

theorem quoted_fits {quote : UInt8} (opens : Piece.isQuote quote = true) :
    (Piece.quoted quote source).Fits (quote :: source) := by
  refine ⟨List.cons_ne_nil _ _, ?_⟩
  have reached := quoted_quotedText quote [] source
  have lexeme : Piece.unescape false (Piece.quotedText quote false source) =
      withoutEscapes [] (Piece.quotedText quote false source) :=
    unescape_eq_withoutEscapes [] _
  have inside : OnlyEscaped quote (Piece.quotedText quote false source) :=
    reached.inside
  rcases reached.stops with same | ⟨others, same, closes⟩
  · change source = Piece.quotedText quote false source at same
    have drop := drop_length_of_eq (same.trans (List.append_nil _).symm)
    refine ⟨[], ?_, ?_⟩
    · simp only [Piece.quoted, drop, List.take_nil, List.append_nil]
      rw [← same]
    · simp only [Piece.quoted, drop, List.take_nil, List.append_nil, lexeme]
      exact .openString opens inside
  · change source = Piece.quotedText quote false source ++ quote :: others
      at same
    have drop := drop_length_of_eq same
    refine ⟨others, ?_, ?_⟩
    · simp only [Piece.quoted, drop, List.cons_append, List.append_assoc,
        List.take_succ_cons, List.take_zero, List.nil_append]
      rw [← same]
    · simp only [Piece.quoted, drop, List.take_succ_cons, List.take_zero, lexeme]
      exact .string opens inside closes

end Pieces

theorem word_fits {byte : UInt8} {rest : Bytes}
    (starts : Token.isWordStart byte = true) :
    (Piece.word (byte :: rest)).Fits (byte :: rest) := by
  have part := Token.isWordPart_of_isWordStart starts
  have spelled :
      Token.isWord ((byte :: rest).takeWhile Token.isWordPart) = true := by
    rw [List.takeWhile_cons_of_pos part, Token.isWord, starts, List.all_takeWhile]
    rfl
  refine ⟨?_, (byte :: rest).dropWhile Token.isWordPart,
    List.takeWhile_append_dropWhile.symm,
    .word spelled (head?_dropWhile_fails Token.isWordPart _)⟩
  unfold Piece.word Piece.verbatim
  rw [List.takeWhile_cons_of_pos part]
  exact List.cons_ne_nil _ _

theorem number_fits {byte : UInt8} {rest : Bytes}
    (digit : isDigit byte = true) :
    (Piece.number (byte :: rest)).Fits (byte :: rest) := by
  have nonempty : (byte :: rest).takeWhile isDigit ≠ [] := by
    rw [List.takeWhile_cons_of_pos digit]
    exact List.cons_ne_nil _ _
  have whole : ∀ other ∈ (byte :: rest).takeWhile isDigit,
      isDigit other = true :=
    List.all_eq_true.mp List.all_takeWhile
  have split : byte :: rest =
      (byte :: rest).takeWhile isDigit ++ (byte :: rest).dropWhile isDigit :=
    List.takeWhile_append_dropWhile.symm
  have stops := head?_dropWhile_fails isDigit (byte :: rest)
  have integer (following : Bytes)
      (same : byte :: rest = (byte :: rest).takeWhile isDigit ++ following)
      (ends : ∀ next ∈ following.head?, isDigit next = false ∧ next ≠ point) :
      (Piece.verbatim .number ((byte :: rest).takeWhile isDigit)).Fits
        (byte :: rest) :=
    ⟨nonempty, following, same, .integer nonempty whole ends⟩
  unfold Piece.number
  cases tail : (byte :: rest).dropWhile isDigit with
  | nil =>
      rw [tail] at split
      rw [Piece.fractionalText, List.append_nil]
      exact integer [] split nofun
  | cons next others =>
      rw [tail] at split stops
      rw [Piece.fractionalText]
      by_cases pointed : next = point
      · rw [if_pos pointed, pointed]
        rw [pointed] at split
        refine ⟨by simp [Piece.verbatim], others.dropWhile isDigit, ?_,
          .decimal nonempty whole (List.all_eq_true.mp List.all_takeWhile)
            (head?_dropWhile_fails isDigit others)⟩
        simp only [Piece.verbatim, List.append_assoc, List.cons_append,
          List.takeWhile_append_dropWhile]
        exact split
      · rw [if_neg pointed, List.append_nil]
        refine integer (next :: others) split fun byte head => ⟨stops byte head, ?_⟩
        rwa [← Option.some.inj head]

theorem symbol_fits {byte : UInt8} {rest : Bytes}
    (notBlank : Piece.isBlank byte = false) (notNewline : byte ≠ newline)
    (noLine : ¬(byte = slash ∧ rest.head? = some slash))
    (noBlock : ¬(byte = slash ∧ rest.head? = some asterisk))
    (notQuote : Piece.isQuote byte = false) (notDigit : isDigit byte = false)
    (notStart : Token.isWordStart byte = false) :
    (Piece.symbol byte rest).Fits (byte :: rest) := by
  unfold Piece.symbol
  cases marked : Token.punctuation.lookup byte with
  | some kind =>
      exact ⟨List.cons_ne_nil byte [], rest, rfl,
        .punctuation (Token.mem_punctuation_of_lookup marked)⟩
  | none =>
      cases found : Token.operator? (byte :: rest) with
      | some operator =>
          have longest := Token.operator?_isLongest found
          have nonempty := (Token.operator_facts operator longest.listed).1
          have noMarker {next : UInt8}
              (no : ¬(byte = slash ∧ rest.head? = some next)) :
              ¬[slash, next] <+: byte :: rest := by
            rintro ⟨others, same⟩
            cases same
            exact no ⟨rfl, rfl⟩
          obtain ⟨others, same⟩ := longest.begins
          refine ⟨nonempty, others, same.symm, .operator ?_ ?_ ?_⟩
          · rwa [same]
          · rw [same]
            exact noMarker noLine
          · rw [same]
            exact noMarker noBlock
      | none =>
          have notOperator : byte ∉ Token.operatorBytes := by
            intro listed
            obtain ⟨operator, known, spelling⟩ :=
              Token.operator_of_byte byte listed
            apply Token.operator?_eq_none found operator known
            rw [spelling]
            exact ⟨rest, rfl⟩
          have unmarked : byte ∉ Token.punctuation.map Prod.fst := by
            intro listed
            obtain ⟨⟨mark, kind⟩, known, rfl⟩ := List.mem_map.mp listed
            have missing := List.lookup_eq_none_iff.mp marked (mark, kind) known
            simp at missing
          refine ⟨List.cons_ne_nil byte [], rest, rfl, .unknown ?_⟩
          simp [Token.isStray, Token.isWordPart, notStart, notDigit, notQuote,
            notOperator, unmarked, notBlank, notNewline]

theorem first?_fits {source : Bytes} {piece : Piece}
    (found : Piece.first? source = some piece) : piece.Fits source := by
  cases source with
  | nil => cases found
  | cons byte rest =>
      rw [Piece.first?] at found
      split at found
      · cases found
      rename_i notBlank
      split at found
      · rename_i same
        cases found
        rw [same]
        exact ⟨List.cons_ne_nil _ _, rest, rfl, .newline⟩
      rename_i notNewline
      split at found
      · rename_i slashes
        obtain ⟨rfl, next⟩ := slashes
        obtain ⟨others, rfl⟩ := List.head?_eq_some_iff.mp next
        cases found
        exact lineComment_fits others
      rename_i noLine
      split at found
      · rename_i marker
        obtain ⟨rfl, next⟩ := marker
        obtain ⟨others, rfl⟩ := List.head?_eq_some_iff.mp next
        cases found
        exact blockComment_fits others
      rename_i noBlock
      split at found
      · rename_i opens
        cases found
        exact quoted_fits rest opens
      rename_i notQuote
      split at found
      · rename_i digit
        cases found
        exact number_fits digit
      rename_i notDigit
      split at found
      · rename_i starts
        cases found
        exact word_fits starts
      · rename_i notStart
        cases found
        rw [Bool.not_eq_true] at notBlank notQuote notDigit notStart
        exact symbol_fits notBlank notNewline noLine noBlock notQuote notDigit
          notStart

/-! ### What is covered is taken off -/

theorem first?_quoted {quote : UInt8} (opens : Piece.isQuote quote = true)
    (rest : Bytes) :
    Piece.first? (quote :: rest) = some (.quoted quote rest) := by
  obtain ⟨notBlank, notNewline, notSlash⟩ :=
    Token.not_special_of_isQuote quote opens
  simp [Piece.first?, notBlank, notNewline, notSlash, opens]

theorem first?_word {word rest : Bytes} (spelled : Token.isWord word = true)
    (ends : ∀ byte ∈ rest.head?, Token.isWordPart byte = false) :
    Piece.first? (word ++ rest) =
      some (.verbatim (Token.wordKind word) word) := by
  cases word with
  | nil => cases spelled
  | cons first others =>
      rw [Token.isWord, Bool.and_eq_true] at spelled
      obtain ⟨starts, parts⟩ := spelled
      have part := Token.isWordPart_of_isWordStart starts
      have text : (first :: others ++ rest).takeWhile Token.isWordPart =
          first :: others :=
        takeWhile_append_of_stops
          (List.forall_mem_cons.mpr ⟨part, List.all_eq_true.mp parts⟩) ends
      obtain ⟨notBlank, notNewline, notSlash, notQuote, digit⟩ :=
        Token.not_special_of_isWordPart first part
      have scanned : Piece.first? (first :: others ++ rest) =
          some (.word (first :: others ++ rest)) := by
        simp [Piece.first?, notBlank, notNewline, notSlash, notQuote, digit, starts]
      rw [scanned, Piece.word, text]

theorem first?_number {digits rest : Bytes} (nonempty : digits ≠ [])
    (whole : ∀ byte ∈ digits, isDigit byte = true) :
    Piece.first? (digits ++ rest) = some (.number (digits ++ rest)) := by
  cases digits with
  | nil => exact absurd rfl nonempty
  | cons byte others =>
      have digit := whole byte List.mem_cons_self
      have part : Token.isWordPart byte = true := by
        rw [Token.isWordPart, digit, Bool.or_true]
      obtain ⟨notBlank, notNewline, notSlash, notQuote, _⟩ :=
        Token.not_special_of_isWordPart byte part
      simp [Piece.first?, notBlank, notNewline, notSlash, notQuote, digit]

theorem number_integer {digits rest : Bytes}
    (whole : ∀ byte ∈ digits, isDigit byte = true)
    (ends : ∀ byte ∈ rest.head?, isDigit byte = false ∧ byte ≠ point) :
    Piece.number (digits ++ rest) = .verbatim .number digits := by
  have stops : ∀ byte ∈ rest.head?, isDigit byte = false :=
    fun byte head => (ends byte head).1
  have unpointed : Piece.fractionalText rest = [] := by
    cases rest with
    | nil => rfl
    | cons byte others => exact if_neg (ends byte rfl).2
  rw [Piece.number, takeWhile_append_of_stops whole stops,
    dropWhile_append_of_stops whole stops, unpointed, List.append_nil]

theorem number_decimal {digits decimals rest : Bytes}
    (whole : ∀ byte ∈ digits, isDigit byte = true)
    (fraction : ∀ byte ∈ decimals, isDigit byte = true)
    (ends : ∀ byte ∈ rest.head?, isDigit byte = false) :
    Piece.number (digits ++ point :: (decimals ++ rest)) =
      .verbatim .number (digits ++ point :: decimals) := by
  have stops : ∀ byte ∈ (point :: (decimals ++ rest)).head?,
      isDigit byte = false := by
    intro byte head
    rw [← Option.some.inj head]
    rfl
  rw [Piece.number, takeWhile_append_of_stops whole stops,
    dropWhile_append_of_stops whole stops, Piece.fractionalText, if_pos rfl,
    takeWhile_append_of_stops fraction ends]

theorem first?_symbol {byte : UInt8} {rest : Bytes}
    (plain : Token.isSymbolByte byte = true)
    (noComment : byte = slash →
      rest.head? ≠ some slash ∧ rest.head? ≠ some asterisk) :
    Piece.first? (byte :: rest) = some (.symbol byte rest) := by
  simp only [Token.isSymbolByte, Token.isWordPart, Bool.and_eq_true,
    Bool.not_eq_true', bne_iff_ne, Bool.or_eq_false_iff] at plain
  obtain ⟨⟨⟨notBlank, notNewline⟩, notQuote⟩, notStart, notDigit⟩ := plain
  have notLine : ¬(byte = slash ∧ rest.head? = some slash) :=
    fun both => (noComment both.1).1 both.2
  have notBlock : ¬(byte = slash ∧ rest.head? = some asterisk) :=
    fun both => (noComment both.1).2 both.2
  simp [Piece.first?, notBlank, notNewline, notLine, notBlock, notQuote,
    notDigit, notStart]

theorem first?_punctuation {byte : UInt8} {kind : Token.Kind}
    (listed : (byte, kind) ∈ Token.punctuation) (rest : Bytes) :
    Piece.first? (byte :: rest) = some (.verbatim kind [byte]) := by
  obtain ⟨plain, notSlash, marked⟩ := Token.punctuation_facts _ listed
  rw [first?_symbol plain fun same => absurd same notSlash, Piece.symbol, marked]

theorem first?_operator {operator : Token.Operator} {source : Bytes}
    (longest : operator.IsLongest source)
    (noLine : ¬[slash, slash] <+: source)
    (noBlock : ¬[slash, asterisk] <+: source) :
    Piece.first? source =
      some (.verbatim operator.kind operator.spelling) := by
  have found := longest.operator?_eq
  cases source with
  | nil =>
      have empty := List.prefix_nil.mp longest.begins
      exact absurd empty (Token.operator_facts operator longest.listed).1
  | cons byte rest =>
      obtain ⟨plain, unmarked⟩ :=
        Token.operatorByte_facts byte longest.mem_operatorBytes
      have noComment : byte = slash →
          rest.head? ≠ some slash ∧ rest.head? ≠ some asterisk := by
        rintro rfl
        constructor
        · intro next
          obtain ⟨others, rfl⟩ := List.head?_eq_some_iff.mp next
          exact noLine ⟨others, rfl⟩
        · intro next
          obtain ⟨others, rfl⟩ := List.head?_eq_some_iff.mp next
          exact noBlock ⟨others, rfl⟩
      rw [first?_symbol plain noComment, Piece.symbol, unmarked, found]

theorem first?_stray {byte : UInt8} (stray : Token.isStray byte = true)
    (rest : Bytes) :
    Piece.first? (byte :: rest) = some (.verbatim .unknown [byte]) := by
  simp only [Token.isStray, Bool.and_eq_true, Bool.not_eq_true', bne_iff_ne]
    at stray
  obtain ⟨⟨⟨⟨⟨notPart, notQuote⟩, notOperator⟩, unmarked⟩, notBlank⟩, notNewline⟩ :=
    stray
  have plain : Token.isSymbolByte byte = true := by
    simp [Token.isSymbolByte, notBlank, notNewline, notQuote, notPart]
  have notSlash : byte ≠ slash := by
    rintro rfl
    revert notOperator
    decide
  have missing : Token.punctuation.lookup byte = none := by
    cases marked : Token.punctuation.lookup byte with
    | none => rfl
    | some kind =>
        have listed := List.mem_map_of_mem (f := Prod.fst)
          (Token.mem_punctuation_of_lookup marked)
        rw [List.contains_iff_mem.mpr listed] at unmarked
        cases unmarked
  have absent : Token.operator? (byte :: rest) = none := by
    cases found : Token.operator? (byte :: rest) with
    | none => rfl
    | some operator =>
        have listed := List.contains_iff_mem.mpr
          (Token.operator?_isLongest found).mem_operatorBytes
        rw [listed] at notOperator
        cases notOperator
  rw [first?_symbol plain fun same => absurd same notSlash, Piece.symbol, missing,
    absent]

/-- What is covered at the front of a source is the first piece of the source. -/
theorem Covers.first?_eq {kind : Token.Kind} {lexeme extent rest : Bytes}
    (covers : Covers kind lexeme extent rest) :
    Piece.first? (extent ++ rest) = some ⟨kind, extent, lexeme⟩ := by
  cases covers with
  | newline => rfl
  | @string quote body _ opens inside closes =>
      have reached : Quoted quote [] body (body ++ quote :: rest) :=
        ⟨inside, .inr ⟨rest, rfl, closes⟩⟩
      have text : Piece.quotedText quote false (body ++ quote :: rest) = body :=
        reached.quotedText_eq
      have lexeme : Piece.unescape false body = withoutEscapes [] body :=
        unescape_eq_withoutEscapes [] body
      have split : quote :: body ++ [quote] ++ rest =
          quote :: (body ++ quote :: rest) := by
        simp
      rw [split, first?_quoted opens]
      simp only [Piece.quoted, text, lexeme, List.drop_left, List.take_succ_cons,
        List.take_zero]
  | @openString quote body opens inside =>
      have reached : Quoted quote [] body body := ⟨inside, .inl rfl⟩
      have text : Piece.quotedText quote false body = body :=
        reached.quotedText_eq
      have lexeme : Piece.unescape false body = withoutEscapes [] body :=
        unescape_eq_withoutEscapes [] body
      rw [List.append_nil, first?_quoted opens]
      simp only [Piece.quoted, text, lexeme, List.drop_length, List.take_nil,
        List.append_nil]
  | @lineComment text _ _ oneLine ends trimmed =>
      have inner : ∀ byte ∈ text, (byte != Bytes.newline) = true := by
        intro byte member
        exact bne_iff_ne.mpr (ne_of_mem_of_not_mem member oneLine)
      have stops : ∀ byte ∈ rest.head?, (byte != Bytes.newline) = false := by
        intro byte head
        rw [ends byte head]
        rfl
      have scanned : Piece.first? (slash :: slash :: (text ++ rest)) =
          some (.lineComment (text ++ rest)) :=
        rfl
      rw [List.cons_append, List.cons_append, scanned, Piece.lineComment,
        takeWhile_append_of_stops inner stops, trimmed.trim_eq]
  | @blockComment text _ _ first trimmed =>
      have scanned :
          Piece.first? (slash :: asterisk :: (text ++ asterisk :: slash :: rest)) =
            some (.blockComment (text ++ asterisk :: slash :: rest)) :=
        rfl
      simp only [List.cons_append, List.append_assoc, List.nil_append]
      simp only [scanned, Piece.blockComment, first.enclosedText_eq,
        trimmed.trim_eq, List.drop_left, List.take_succ_cons, List.take_zero,
        List.cons_append]
  | @openComment text _ unclosed trimmed =>
      have scanned : Piece.first? (slash :: asterisk :: text) =
          some (.blockComment text) :=
        rfl
      simp only [List.append_nil, scanned, Piece.blockComment,
        unclosed.enclosedText_eq, trimmed.trim_eq, List.drop_length,
        List.take_nil]
  | word spelled ends => exact first?_word spelled ends
  | integer nonempty whole ends =>
      rw [first?_number nonempty whole, number_integer whole ends]
      rfl
  | decimal nonempty whole fraction ends =>
      rw [List.append_assoc, first?_number nonempty whole, List.cons_append,
        number_decimal whole fraction ends]
      rfl
  | punctuation listed => exact first?_punctuation listed rest
  | operator longest noLine noBlock =>
      exact first?_operator longest noLine noBlock
  | unknown stray => exact first?_stray stray rest

theorem Covers.alone {kind : Token.Kind} {lexeme extent rest : Bytes}
    (covers : Covers kind lexeme extent rest) : Covers kind lexeme extent [] := by
  cases covers with
  | newline => exact .newline
  | string opens inside closes => exact .string opens inside closes
  | openString opens inside => exact .openString opens inside
  | lineComment oneLine _ trimmed => exact .lineComment oneLine nofun trimmed
  | blockComment first trimmed =>
      refine .blockComment (fun front back same => ?_) trimmed
      apply first front (back ++ rest)
      have longer := congrArg (· ++ rest) same
      simpa using longer
  | openComment unclosed trimmed => exact .openComment unclosed trimmed
  | word spelled _ => exact .word spelled nofun
  | integer nonempty whole _ => exact .integer nonempty whole nofun
  | decimal nonempty whole fraction _ =>
      exact .decimal nonempty whole fraction nofun
  | punctuation listed => exact .punctuation listed
  | @operator operator _ longest noLine noBlock =>
      have alone := longest.shortened (List.prefix_refl operator.spelling)
      have inside : operator.spelling <+: operator.spelling ++ rest :=
        List.prefix_append _ _
      refine .operator ?_ ?_ ?_
      · rwa [List.append_nil]
      · rw [List.append_nil]
        exact fun front => noLine (front.trans inside)
      · rw [List.append_nil]
        exact fun front => noBlock (front.trans inside)
  | unknown stray => exact .unknown stray

/-- The extent alone determines the kind and the lexeme. -/
theorem Covers.unique {kind other : Token.Kind}
    {lexeme otherLexeme extent rest following : Bytes}
    (covers : Covers kind lexeme extent rest)
    (also : Covers other otherLexeme extent following) :
    kind = other ∧ lexeme = otherLexeme := by
  have same := covers.alone.first?_eq.symm.trans also.alone.first?_eq
  cases same
  exact ⟨rfl, rfl⟩

theorem Covers.kind_ne_endOfFile {kind : Token.Kind}
    {lexeme extent rest : Bytes} (covers : Covers kind lexeme extent rest) :
    kind ≠ .endOfFile := by
  intro finish
  have special : kind ∈ Token.specialKinds := by
    rw [finish]
    decide
  cases covers with
  | word => exact Token.wordKind_not_special _ special
  | punctuation listed => exact Token.punctuation_not_special _ listed special
  | operator longest =>
      exact Token.operators_not_special _ longest.listed special
  | _ => cases finish

end ScriptAudit
