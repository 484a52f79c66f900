/-
Numbers in base ten: they are written with digits only, and read back as they
were. A numeral at the end of a text is told from the text before it by the first
byte, from the right, that is no digit.
-/

import ScriptAudit.Number.Numeral

namespace ScriptAudit.Bytes

open Numeral

def digit (value : Nat) : UInt8 :=
  (0x30 + value).toUInt8

theorem digit_facts : ∀ value < 10,
    String.utf8EncodeChar (Nat.digitChar value) = [digit value] ∧
      isDigit (digit value) = true ∧ digitValue (digit value) = value := by
  decide

theorem decimal_of_lt {number : Nat} (small : number < 10) :
    decimal number = [digit number] := by
  rw [decimal, Nat.toDigits_of_lt_base small, List.flatMap_singleton]
  exact (digit_facts number small).1

theorem decimal_of_le {number : Nat} (large : 10 ≤ number) :
    decimal number = decimal (number / 10) ++ [digit (number % 10)] := by
  have last := (digit_facts (number % 10) (Nat.mod_lt _ (by omega))).1
  rw [decimal, Nat.toDigits_of_base_le (by omega) large, List.flatMap_append,
    List.flatMap_singleton, last]
  rfl

theorem induction_on_tens {motive : Nat → Prop}
    (single : ∀ number < 10, motive number)
    (longer : ∀ number, 10 ≤ number → motive (number / 10) → motive number)
    (number : Nat) : motive number := by
  induction number using Nat.strongRecOn with
  | ind number inductionHypothesis =>
      rcases Nat.lt_or_ge number 10 with small | large
      · exact single number small
      · exact longer number large (inductionHypothesis _ (by omega))

theorem isDigit_of_mem_decimal {number : Nat} :
    ∀ byte ∈ decimal number, isDigit byte = true := by
  induction number using induction_on_tens with
  | single number small =>
      rw [decimal_of_lt small, List.forall_mem_singleton]
      exact (digit_facts number small).2.1
  | longer number large inductionHypothesis =>
      rw [decimal_of_le large, List.forall_mem_append, List.forall_mem_singleton]
      have last := digit_facts (number % 10) (Nat.mod_lt _ (by omega))
      exact ⟨inductionHypothesis, last.2.1⟩

theorem newline_not_mem_decimal (number : Nat) : newline ∉ decimal number := by
  intro written
  cases isDigit_of_mem_decimal newline written

theorem digitsValue_decimal (number : Nat) :
    digitsValue 10 (decimal number) = number := by
  induction number using induction_on_tens with
  | single number small =>
      rw [decimal_of_lt small]
      change 0 * 10 + digitValue (digit number) = number
      rw [(digit_facts number small).2.2, Nat.zero_mul, Nat.zero_add]
  | longer number large inductionHypothesis =>
      have last := (digit_facts (number % 10) (Nat.mod_lt _ (by omega))).2.2
      rw [digitsValue] at inductionHypothesis ⊢
      rw [decimal_of_le large, List.foldl_append, inductionHypothesis]
      change number / 10 * 10 + digitValue (digit (number % 10)) = number
      rw [last]
      omega

theorem decimal_injective {first second : Nat}
    (same : decimal first = decimal second) : first = second := by
  rw [← digitsValue_decimal first, same, digitsValue_decimal]

/-- If a test passes on a first part and fails right after it, then the parts of a
text are determined by the text. -/
theorem append_inj_of_test (test : UInt8 → Bool)
    {front other rest following : Bytes}
    (passes : ∀ byte ∈ front, test byte = true)
    (alsoPasses : ∀ byte ∈ other, test byte = true)
    (stops : ∀ byte ∈ rest.head?, test byte = false)
    (alsoStops : ∀ byte ∈ following.head?, test byte = false)
    (same : front ++ rest = other ++ following) :
    front = other ∧ rest = following := by
  have cut (text : Bytes) (stop : ∀ byte ∈ text.head?, test byte = false) :
      text.takeWhile test = [] := by
    cases text with
    | nil => rfl
    | cons byte _ => exact List.takeWhile_cons_of_neg (by simp [stop byte rfl])
  have fronts := congrArg (List.takeWhile test) same
  rw [List.takeWhile_append_of_pos passes, cut rest stops,
    List.takeWhile_append_of_pos alsoPasses, cut following alsoStops,
    List.append_nil, List.append_nil] at fronts
  subst fronts
  exact ⟨rfl, List.append_cancel_left same⟩

theorem append_mark_inj (mark : UInt8) {closing : Bytes}
    (closes : closing.head? = some mark) {front other rest following : Bytes}
    (absent : mark ∉ front) (alsoAbsent : mark ∉ other)
    (same : front ++ (closing ++ rest) = other ++ (closing ++ following)) :
    front = other ∧ rest = following := by
  have passes {text : Bytes} (free : mark ∉ text) :
      ∀ byte ∈ text, (byte != mark) = true :=
    fun _ present => bne_iff_ne.mpr (ne_of_mem_of_not_mem present free)
  have stops (text : Bytes) :
      ∀ byte ∈ (closing ++ text).head?, (byte != mark) = false := by
    rw [List.head?_append, closes]
    intro byte head
    cases head
    exact bne_self_eq_false mark
  obtain ⟨fronts, rests⟩ := append_inj_of_test (· != mark) (passes absent)
    (passes alsoAbsent) (stops rest) (stops following) same
  exact ⟨fronts, List.append_cancel_left rests⟩

/-- Texts before a numeral, with a mark between them that ends with no digit. -/
theorem append_decimal_inj {mark : Bytes} (last : UInt8)
    (ends : mark.getLast? = some last) (plain : isDigit last = false)
    {front other : Bytes} {first second : Nat}
    (same : front ++ mark ++ decimal first = other ++ mark ++ decimal second) :
    front = other ∧ first = second := by
  have digits (number : Nat) :
      ∀ byte ∈ (decimal number).reverse, isDigit byte = true :=
    fun byte written =>
      isDigit_of_mem_decimal byte (List.mem_reverse.mp written)
  have stops (text : Bytes) :
      ∀ byte ∈ (text ++ mark).reverse.head?, isDigit byte = false := by
    rw [List.head?_reverse, List.getLast?_append, ends]
    intro byte found
    cases found
    exact plain
  have reversed : (decimal first).reverse ++ (front ++ mark).reverse =
      (decimal second).reverse ++ (other ++ mark).reverse := by
    rw [← List.reverse_append, ← List.reverse_append, same]
  obtain ⟨numerals, fronts⟩ := append_inj_of_test isDigit (digits first)
    (digits second) (stops front) (stops other) reversed
  exact ⟨List.append_cancel_right (List.reverse_inj.mp fronts),
    decimal_injective (List.reverse_inj.mp numerals)⟩

end ScriptAudit.Bytes
