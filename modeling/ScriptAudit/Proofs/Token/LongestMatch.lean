/-
Longest match. Where a token starts, the source is taken as far as it goes: no longer
operator begins there, and what follows a word or a number could not have been a part
of it. The place of a token tells the one offset at which it starts.
-/

import Mathlib.Logic.ExistsUnique
import ScriptAudit.Proofs.Token.Order
import ScriptAudit.Proofs.Token.Writing

namespace ScriptAudit

open Bytes

theorem eq_of_placeAfter {front other source : Bytes} (begins : front <+: source)
    (otherBegins : other <+: source)
    (same : placeAfter front = placeAfter other) : front = other := by
  have nested {shorter longer : Bytes} (inside : shorter <+: longer)
      (place : placeAfter shorter = placeAfter longer) : shorter = longer := by
    obtain ⟨more, rfl⟩ := inside
    rw [placeAfter_append] at place
    by_cases empty : more = []
    · rw [empty, List.append_nil]
    · have later := (placeAfter shorter).lt_advance empty
      rw [← place] at later
      exact absurd later (lt_irrefl _)
  rcases List.prefix_or_prefix_of_prefix begins otherBegins with shorter | longer
  · exact nested shorter same
  · exact (nested longer same.symm).symm

namespace Token

def StartsAt (token : Token) (source : Bytes) (offset : Nat) : Prop :=
  offset ≤ source.length ∧ token.position = placeAfter (source.take offset)

theorem StartsAt.unique {token : Token} {source : Bytes} {offset other : Nat}
    (starts : token.StartsAt source offset)
    (startsOther : token.StartsAt source other) : offset = other := by
  have taken := eq_of_placeAfter (List.take_prefix offset source)
    (List.take_prefix other source) (starts.2.symm.trans startsOther.2)
  have lengths := congrArg List.length taken
  rwa [List.length_take_of_le starts.1,
    List.length_take_of_le startsOther.1] at lengths

def operatorKinds : List Kind :=
  [.assignment, .arithmetic, .comparison, .logical, .unary]

/-- A token takes as much as it can of the text that begins where it starts. -/
structure LongestMatch (token : Token) (text : Bytes) : Prop where
  operator : token.kind ∈ operatorKinds →
    Operator.IsLongest ⟨token.lexeme, token.kind⟩ text
  noComment : token.kind ∈ operatorKinds →
    ¬[slash, slash] <+: text ∧ ¬[slash, asterisk] <+: text
  known : ∀ byte ∈ text.head?, byte ∈ operatorBytes → token.kind ≠ .unknown
  word : token.kind ∈ wordKinds →
    ∃ rest, text = token.lexeme ++ rest ∧
      ∀ byte ∈ rest.head?, isWordPart byte = false
  number : token.kind = .number →
    ∃ rest, text = token.lexeme ++ rest ∧
      ∀ byte ∈ rest.head?,
        isDigit byte = false ∧ (byte = point → point ∈ token.lexeme)

def matchedKinds : List Kind :=
  .number :: .unknown :: (wordKinds ++ operatorKinds)

namespace LongestMatch

variable {token : Token} {text : Bytes}

theorem of_other (other : token.kind ∉ matchedKinds) :
    token.LongestMatch text := by
  have notOperator : token.kind ∉ operatorKinds := fun listed =>
    other (.tail _ (.tail _ (List.mem_append_right _ listed)))
  have notWord : token.kind ∉ wordKinds := fun listed =>
    other (.tail _ (.tail _ (List.mem_append_left _ listed)))
  constructor
  · exact fun kind => absurd kind notOperator
  · exact fun kind => absurd kind notOperator
  · intro _ _ _ kind
    exact other (kind ▸ .tail _ (.head _))
  · exact fun kind => absurd kind notWord
  · intro kind
    exact absurd (kind ▸ .head _) other

variable {rest : Bytes} (position : Position)

theorem of_word {word : Bytes}
    (ends : ∀ byte ∈ rest.head?, isWordPart byte = false) :
    Token.LongestMatch ⟨wordKind word, word, position⟩ (word ++ rest) := by
  have kinds : ∀ kind ∈ wordKinds,
      kind ∉ operatorKinds ∧ kind ≠ .unknown ∧ kind ≠ .number := by
    decide
  obtain ⟨notOperator, known, notNumber⟩ := kinds _ (wordKind_mem word)
  constructor
  · exact fun operator => absurd operator notOperator
  · exact fun operator => absurd operator notOperator
  · exact fun _ _ _ => known
  · exact fun _ => ⟨rest, rfl, ends⟩
  · exact fun number => absurd number notNumber

theorem of_number {number : Bytes}
    (ends : ∀ byte ∈ rest.head?,
      isDigit byte = false ∧ (byte = point → point ∈ number)) :
    Token.LongestMatch ⟨.number, number, position⟩ (number ++ rest) where
  operator kind := absurd kind (by decide : Kind.number ∉ operatorKinds)
  noComment kind := absurd kind (by decide : Kind.number ∉ operatorKinds)
  known := nofun
  word kind := absurd kind (by decide : Kind.number ∉ wordKinds)
  number _ := ⟨rest, rfl, ends⟩

theorem of_operator {operator : Operator} {text : Bytes}
    (longest : operator.IsLongest text) (noLine : ¬[slash, slash] <+: text)
    (noBlock : ¬[slash, asterisk] <+: text) :
    Token.LongestMatch ⟨operator.kind, operator.spelling, position⟩ text := by
  have kinds : ∀ operator ∈ operators, operator.kind ∉ wordKinds ∧
      operator.kind ≠ .unknown ∧ operator.kind ≠ .number := by
    decide
  obtain ⟨notWord, known, notNumber⟩ := kinds _ longest.listed
  constructor
  · exact fun _ => longest
  · exact fun _ => ⟨noLine, noBlock⟩
  · exact fun _ _ _ => known
  · exact fun kind => absurd kind notWord
  · exact fun kind => absurd kind notNumber

theorem of_unknown {byte : UInt8} (stray : isStray byte = true) :
    Token.LongestMatch ⟨.unknown, [byte], position⟩ ([byte] ++ rest) := by
  have notOperator : Kind.unknown ∉ operatorKinds := by decide
  have notWord : Kind.unknown ∉ wordKinds := by decide
  have notNumber : Kind.unknown ≠ .number := by decide
  constructor
  · exact fun kind => absurd kind notOperator
  · exact fun kind => absurd kind notOperator
  · intro first head listed
    obtain rfl := Option.some.inj head
    simp [isStray, listed] at stray
  · exact fun kind => absurd kind notWord
  · exact fun kind => absurd kind notNumber

end LongestMatch

end Token

open Token

/-! ### Whole sources -/

theorem Covers.longestMatch {kind : Kind} {lexeme extent rest : Bytes}
    (covers : Covers kind lexeme extent rest) (position : Position) :
    Token.LongestMatch ⟨kind, lexeme, position⟩ (extent ++ rest) := by
  have marks : ∀ mark ∈ Token.punctuation, mark.2 ∉ matchedKinds := by decide
  cases covers with
  | newline => exact .of_other (by decide : Kind.newline ∉ matchedKinds)
  | string | openString =>
      exact .of_other (by decide : Kind.string ∉ matchedKinds)
  | lineComment | blockComment | openComment =>
      exact .of_other (by decide : Kind.comment ∉ matchedKinds)
  | word _ ends => exact .of_word position ends
  | integer _ _ ends =>
      refine .of_number position fun byte head => ⟨(ends byte head).1, ?_⟩
      exact fun isPoint => absurd isPoint (ends byte head).2
  | decimal _ _ _ ends =>
      refine .of_number position fun byte head => ⟨ends byte head, fun _ => ?_⟩
      exact List.mem_append_right _ List.mem_cons_self
  | punctuation listed => exact .of_other (marks _ listed)
  | operator longest noLine noBlock =>
      exact .of_operator position longest noLine noBlock
  | unknown stray => exact .of_unknown position stray

/--
Every token of a source starts at one offset of it, and takes as much as it can of
the source from there. An operator is the longest one that begins there, and none
starts where a comment does; no operator byte becomes an unknown token. A word stops
before a byte that is no part of a word, and a number before a byte that is neither a
digit nor its first point.
-/
theorem tokenize_longestMatch {source : Bytes} {token : Token}
    (member : token ∈ tokenize source) :
    (∃! offset, token.StartsAt source offset) ∧
      ∀ offset, token.StartsAt source offset →
        token.LongestMatch (source.drop offset) := by
  obtain ⟨before, rest, rfl, origin⟩ := exists_piece_of_mem_tokensFrom member
  have place : token.position = placeAfter before := by
    have position : token.position = Position.start.advance before := by
      rcases origin with ⟨_, rfl⟩ | ⟨_, _, rfl⟩ <;> rfl
    rw [position]
    exact (placeAfter_append [] before).symm
  have starts : token.StartsAt (before ++ rest) before.length := by
    refine ⟨?_, ?_⟩
    · rw [List.length_append]
      exact Nat.le_add_right _ _
    · rw [List.take_left]
      exact place
  have matched : token.LongestMatch rest := by
    rcases origin with ⟨_, rfl⟩ | ⟨piece, found, rfl⟩
    · exact .of_other (by decide : Kind.endOfFile ∉ matchedKinds)
    · obtain ⟨_, following, same, covers⟩ := first?_fits found
      rw [same]
      exact covers.longestMatch _
  refine ⟨⟨before.length, starts, fun other also => also.unique starts⟩, ?_⟩
  intro offset also
  rw [also.unique starts, List.drop_left]
  exact matched

/-- Three marks are one operator, and the next one does not become a part of it. -/
theorem tokenize_longestMatch_shift :
    Operator.IsLongest ⟨">>>", .arithmetic⟩ ">>>=/*" := by
  have member : ⟨.arithmetic, ">>>", ⟨2, 1⟩⟩ ∈ tokenize "a\n>>>=/*" := by
    decide +kernel
  have starts : Token.StartsAt ⟨.arithmetic, ">>>", ⟨2, 1⟩⟩ "a\n>>>=/*" 2 := by
    constructor
    · decide +kernel
    · decide +kernel
  have matched := (tokenize_longestMatch member).2 2 starts
  exact matched.operator (by decide)

end ScriptAudit
