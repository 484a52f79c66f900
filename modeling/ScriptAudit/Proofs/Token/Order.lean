/-
The order of places in a text: by line, and on one line from left to right. The
tokens of a source stand in this order, each strictly after the one before it.
-/

import Mathlib.Order.Defs.LinearOrder
import ScriptAudit.Proofs.Token.Extent

namespace ScriptAudit

namespace Position

instance : LE Position where
  le first second :=
    first.line < second.line ∨
      first.line = second.line ∧ first.column ≤ second.column

instance : LT Position where
  lt first second :=
    first.line < second.line ∨
      first.line = second.line ∧ first.column < second.column

theorem le_iff {first second : Position} :
    first ≤ second ↔ first.line < second.line ∨
      first.line = second.line ∧ first.column ≤ second.column :=
  Iff.rfl

theorem lt_iff {first second : Position} :
    first < second ↔ first.line < second.line ∨
      first.line = second.line ∧ first.column < second.column :=
  Iff.rfl

instance : LinearOrder Position where
  le_refl position := .inr ⟨rfl, Nat.le_refl position.column⟩
  le_trans first second third := by
    simp only [le_iff]
    omega
  lt_iff_le_not_ge first second := by
    simp only [le_iff, lt_iff]
    omega
  le_antisymm first second before behind := by
    obtain ⟨line, column⟩ := first
    obtain ⟨otherLine, otherColumn⟩ := second
    simp only [le_iff] at before behind
    simp only [mk.injEq]
    omega
  le_total first second := by
    simp only [le_iff]
    omega
  toDecidableLE first second := decidable_of_iff' _ le_iff

theorem lt_after (position : Position) (byte : UInt8) :
    position < position.after byte := by
  unfold after
  by_cases same : byte = Bytes.newline
  · rw [if_pos same]
    exact .inl (Nat.lt_succ_self position.line)
  · rw [if_neg same]
    exact .inr ⟨rfl, Nat.lt_succ_self position.column⟩

theorem le_advance (position : Position) (bytes : Bytes) :
    position ≤ position.advance bytes := by
  induction bytes generalizing position with
  | nil => exact le_refl position
  | cons byte rest inductionHypothesis =>
      exact le_trans (le_of_lt (position.lt_after byte))
        (inductionHypothesis (position.after byte))

theorem lt_advance (position : Position) {bytes : Bytes}
    (nonempty : bytes ≠ []) : position < position.advance bytes := by
  cases bytes with
  | nil => exact absurd rfl nonempty
  | cons byte rest =>
      exact lt_of_lt_of_le (position.lt_after byte)
        ((position.after byte).le_advance rest)

end Position

def InOrder (tokens : List Token) : Prop :=
  tokens.Pairwise fun first second => first.position < second.position

theorem InOrder.sublist {tokens others : List Token} (ordered : InOrder tokens)
    (part : others.Sublist tokens) : InOrder others :=
  List.Pairwise.sublist part ordered

theorem inOrder_cons {token : Token} {rest : List Token} :
    InOrder (token :: rest) ↔
      (∀ later ∈ rest, token.position < later.position) ∧ InOrder rest :=
  List.pairwise_cons

theorem inOrder_append {front back : List Token} :
    InOrder (front ++ back) ↔
      InOrder front ∧ InOrder back ∧
        ∀ first ∈ front, ∀ second ∈ back, first.position < second.position :=
  List.pairwise_append

/-- Every extent moves on, so a token stands after all that was consumed. -/
theorem Laid.inOrder {consumed source : Bytes} {tokens : List Token}
    (laid : Laid consumed source tokens) :
    InOrder tokens ∧
      ∀ token ∈ tokens, placeAfter consumed ≤ token.position := by
  induction laid with
  | @finish consumed gap blank =>
      refine ⟨List.pairwise_singleton _ _, List.forall_mem_singleton.mpr ?_⟩
      rw [placeAfter_append]
      exact (placeAfter consumed).le_advance gap
  | @token consumed gap extent rest token tokens _ nonempty _ place _
      inductionHypothesis =>
      obtain ⟨ordered, later⟩ := inductionHypothesis
      have reached : placeAfter consumed ≤ token.position := by
        rw [place, placeAfter_append]
        exact (placeAfter consumed).le_advance gap
      have advanced : token.position <
          placeAfter (consumed ++ gap ++ extent) := by
        rw [place, placeAfter_append (consumed ++ gap)]
        exact (placeAfter (consumed ++ gap)).lt_advance nonempty
      have behind (other : Token) (member : other ∈ tokens) :
          token.position < other.position :=
        lt_of_lt_of_le advanced (later other member)
      refine ⟨inOrder_cons.mpr ⟨behind, ordered⟩, ?_⟩
      refine List.forall_mem_cons.mpr ⟨reached, fun other member => ?_⟩
      exact le_trans reached (le_of_lt (behind other member))

theorem inOrder_tokenize (source : Bytes) : InOrder (tokenize source) :=
  (tokensFrom_laid [] source).inOrder.1

theorem start_le_of_mem_tokenize {source : Bytes} {token : Token}
    (member : token ∈ tokenize source) : Position.start ≤ token.position :=
  (tokensFrom_laid [] source).inOrder.2 token member

theorem Token.Stream.tokens_sublist (all : List Token) :
    (Token.Stream.ofTokens all).tokens.Sublist all :=
  (List.takeWhile_sublist _).trans List.filter_sublist

end ScriptAudit
