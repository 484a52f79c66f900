/-
The vocabulary of the scanner: the bytes that make up words and operators, the bytes
that are of no use, and the kinds of the tables. No operator of the table begins a
text if a longer one does.
-/

import ScriptAudit.Token.Piece

namespace ScriptAudit.Token

open Bytes

def isWord : Bytes → Bool
  | [] => false
  | first :: rest => isWordStart first && rest.all isWordPart

def operatorBytes : Bytes := "+-*/%=<>!&|^~"

def isStray (byte : UInt8) : Bool :=
  !isWordPart byte && !Piece.isQuote byte && !operatorBytes.contains byte
    && !(punctuation.map Prod.fst).contains byte && !Piece.isBlank byte
    && byte != newline

/-- A byte that begins no blank, word, number or string. -/
def isSymbolByte (byte : UInt8) : Bool :=
  !Piece.isBlank byte && byte != newline && !Piece.isQuote byte
    && !isWordPart byte

theorem forall_byte {holds : UInt8 → Prop}
    (all : ∀ code : Fin 256, holds (UInt8.ofFin code)) (byte : UInt8) :
    holds byte :=
  all byte.toFin

theorem isWordPart_of_isWordStart {byte : UInt8}
    (starts : isWordStart byte = true) : isWordPart byte = true := by
  rw [isWordPart, starts]
  rfl

theorem not_special_of_isWordPart : ∀ byte : UInt8, isWordPart byte = true →
    Piece.isBlank byte = false ∧ byte ≠ newline ∧ byte ≠ slash ∧
      Piece.isQuote byte = false ∧ isDigit byte = !isWordStart byte := by
  apply forall_byte
  decide +kernel

theorem not_special_of_isQuote : ∀ byte : UInt8, Piece.isQuote byte = true →
    Piece.isBlank byte = false ∧ byte ≠ newline ∧ byte ≠ slash := by
  apply forall_byte
  decide +kernel

/-- The kinds of the tokens that do not read as the bytes they cover. -/
def specialKinds : List Kind :=
  [.newline, .string, .comment, .endOfFile]

def wordKinds : List Kind :=
  [.identifier, .boolean, .null, .keyword]

theorem wordKind_mem (word : Bytes) : wordKind word ∈ wordKinds := by
  unfold wordKind
  split
  · decide
  split
  · decide
  split <;> decide

theorem wordKind_not_special (word : Bytes) : wordKind word ∉ specialKinds := by
  have words : ∀ kind ∈ wordKinds, kind ∉ specialKinds := by decide
  exact words _ (wordKind_mem word)

theorem punctuation_not_special :
    ∀ entry ∈ punctuation, entry.2 ∉ specialKinds := by
  decide

theorem operators_not_special :
    ∀ operator ∈ operators, operator.kind ∉ specialKinds := by
  decide

theorem punctuation_facts : ∀ entry ∈ punctuation,
    isSymbolByte entry.1 = true ∧ entry.1 ≠ slash ∧
      punctuation.lookup entry.1 = some entry.2 := by
  decide

theorem mem_punctuation_of_lookup {byte : UInt8} {kind : Kind}
    (marked : punctuation.lookup byte = some kind) :
    (byte, kind) ∈ punctuation := by
  obtain ⟨front, back, same, _⟩ := List.lookup_eq_some_iff.mp marked
  rw [same]
  exact List.mem_append_right front List.mem_cons_self

theorem operator_facts : ∀ operator ∈ operators,
    operator.spelling ≠ [] ∧ operator.spelling ⊆ operatorBytes ∧
      ¬[slash, slash] <+: operator.spelling ∧
      ¬[slash, asterisk] <+: operator.spelling ∧
      operator? operator.spelling = some operator := by
  decide

theorem operatorByte_facts : ∀ byte ∈ operatorBytes,
    isSymbolByte byte = true ∧ punctuation.lookup byte = none := by
  decide +kernel

theorem operator_of_byte : ∀ byte ∈ operatorBytes,
    ∃ operator ∈ operators, operator.spelling = [byte] := by
  decide +kernel

/-! ### The longest operator -/

/-- The text begins with the operator, and with no other that is as long. -/
structure Operator.IsLongest (operator : Operator) (text : Bytes) : Prop where
  listed : operator ∈ operators
  begins : operator.spelling <+: text
  longest : ∀ other ∈ operators, other.spelling <+: text →
    other = operator ∨ other.spelling.length < operator.spelling.length

theorem operator?_eq_some {source : Bytes} {operator : Operator}
    (found : operator? source = some operator) :
    operator ∈ operators ∧ operator.spelling <+: source := by
  unfold operator? at found
  have front := List.find?_some found
  exact ⟨List.mem_of_find?_eq_some found, List.isPrefixOf_iff_prefix.mp front⟩

theorem operator?_eq_none {source : Bytes} (missing : operator? source = none) :
    ∀ operator ∈ operators, ¬operator.spelling <+: source := by
  unfold operator? at missing
  intro operator listed front
  exact List.find?_eq_none.mp missing operator listed
    (List.isPrefixOf_iff_prefix.mpr front)

/-- The longer spellings come first, and no spelling comes twice. -/
theorem operators_descend : operators.Pairwise fun first second =>
    second.spelling.length < first.spelling.length ∨
      second.spelling.length = first.spelling.length ∧
        second.spelling ≠ first.spelling := by
  decide +kernel

theorem operator?_isLongest {text : Bytes} {operator : Operator}
    (found : operator? text = some operator) : operator.IsLongest text := by
  obtain ⟨listed, begins⟩ := operator?_eq_some found
  refine ⟨listed, begins, fun other otherListed otherBegins => ?_⟩
  obtain ⟨_, before, behind, table, passed⟩ :=
    List.find?_eq_some_iff_append.mp found
  have descend := operators_descend
  rw [table] at descend otherListed
  rcases List.mem_append.mp otherListed with earlier | chosen
  · have skipped := passed other earlier
    rw [List.isPrefixOf_iff_prefix.mpr otherBegins] at skipped
    cases skipped
  rcases List.mem_cons.mp chosen with same | later
  · exact .inl same
  -- Of two spellings of one length that begin a text, there is but one.
  have smaller := (List.pairwise_cons.mp (List.pairwise_append.mp descend).2.1).1
    other later
  rcases smaller with shorter | ⟨length, different⟩
  · exact .inr shorter
  · have inside := List.prefix_of_prefix_length_le otherBegins begins
      (Nat.le_of_eq length)
    exact absurd (inside.eq_of_length length) different

theorem Operator.IsLongest.operator?_eq {text : Bytes} {operator : Operator}
    (longest : operator.IsLongest text) : operator? text = some operator := by
  cases found : operator? text with
  | none => exact absurd longest.begins (operator?_eq_none found _ longest.listed)
  | some other =>
      have also := operator?_isLongest found
      rcases longest.longest other also.listed also.begins with same | shorter
      · rw [same]
      rcases also.longest operator longest.listed longest.begins with same | longer
      · rw [same]
      · exact absurd shorter (Nat.lt_asymm longer)

theorem Operator.IsLongest.shortened {text rest : Bytes} {operator : Operator}
    (longest : operator.IsLongest (text ++ rest))
    (begins : operator.spelling <+: text) : operator.IsLongest text where
  listed := longest.listed
  begins := begins
  longest other listed front :=
    longest.longest other listed (front.trans (List.prefix_append text rest))

theorem Operator.IsLongest.mem_operatorBytes {byte : UInt8} {rest : Bytes}
    {operator : Operator} (longest : operator.IsLongest (byte :: rest)) :
    byte ∈ operatorBytes := by
  obtain ⟨nonempty, bytes, _⟩ := operator_facts operator longest.listed
  rcases List.prefix_cons_iff.mp longest.begins with empty | ⟨others, same, _⟩
  · exact absurd empty nonempty
  · apply bytes
    rw [same]
    exact List.mem_cons_self

end ScriptAudit.Token
