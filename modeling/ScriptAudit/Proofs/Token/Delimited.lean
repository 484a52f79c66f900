/-
Texts between delimiters: where a string and a comment end. A string reaches to the
first quote that is not escaped, and a comment in markers to the first closing marker.
Either end is described by what the text holds, and there is only one such text.
-/

import ScriptAudit.Token.Piece

namespace ScriptAudit

open Bytes

theorem head?_dropWhile_fails (test : UInt8 → Bool) (text : Bytes) :
    ∀ byte ∈ (text.dropWhile test).head?, test byte = false := by
  intro byte member
  have head := List.head?_dropWhile_not test text
  rw [Option.mem_def.mp member] at head
  exact head

section Runs

variable {test : UInt8 → Bool} {text rest : Bytes}
  (passes : ∀ byte ∈ text, test byte = true)
  (stops : ∀ byte ∈ rest.head?, test byte = false)

include passes stops

theorem takeWhile_append_of_stops : (text ++ rest).takeWhile test = text := by
  rw [List.takeWhile_append_of_pos passes]
  cases rest with
  | nil => exact List.append_nil text
  | cons byte others =>
      rw [List.takeWhile_cons, stops byte rfl]
      exact List.append_nil text

theorem dropWhile_append_of_stops : (text ++ rest).dropWhile test = rest := by
  rw [List.dropWhile_append_of_pos passes]
  cases rest with
  | nil => rfl
  | cons byte others =>
      rw [List.dropWhile_cons, stops byte rfl]
      rfl

end Runs

/-! ### Strings -/

/-- Whether a byte right after the text is escaped: the byte before it is a
backslash that is not escaped itself. -/
def escapes (text : Bytes) : Bool :=
  text.foldl (fun escaped byte => !escaped && byte == backslash) false

theorem escapes_append_singleton (text : Bytes) (byte : UInt8) :
    escapes (text ++ [byte]) = (!escapes text && byte == backslash) := by
  unfold escapes
  rw [List.foldl_append]
  rfl

def OnlyEscaped (quote : UInt8) (text : Bytes) : Prop :=
  ∀ front back, text = front ++ quote :: back → escapes front = true

/-- What is left of a text, which `before` precedes, without the backslashes
that are not escaped. -/
def withoutEscapes (before : Bytes) : Bytes → Bytes
  | [] => []
  | byte :: rest =>
      if byte = backslash ∧ escapes before = false then
        withoutEscapes (before ++ [byte]) rest
      else
        byte :: withoutEscapes (before ++ [byte]) rest

theorem unescape_eq_withoutEscapes (before text : Bytes) :
    Piece.unescape (escapes before) text = withoutEscapes before text := by
  induction text generalizing before with
  | nil => rfl
  | cons byte rest inductionHypothesis =>
      rw [Piece.unescape, withoutEscapes, ← inductionHypothesis,
        escapes_append_singleton]
      cases escapes before with
      | true => simp
      | false =>
          by_cases escaping : byte = backslash
          · simp [escaping]
          · have plain : (byte == backslash) = false := beq_false_of_ne escaping
            simp [escaping, plain]

/-- The text reaches to the first quote of the source that is not escaped, or
to its end. The source is preceded by `before`. -/
structure Quoted (quote : UInt8) (before text source : Bytes) : Prop where
  inside : ∀ front back, text = front ++ quote :: back →
    escapes (before ++ front) = true
  stops : source = text ∨
    ∃ rest, source = text ++ quote :: rest ∧ escapes (before ++ text) = false

namespace Quoted

variable {quote byte : UInt8} {before text source : Bytes}

theorem cons (harmless : byte = quote → escapes before = true)
    (quoted : Quoted quote (before ++ [byte]) text source) :
    Quoted quote before (byte :: text) (byte :: source) := by
  constructor
  · intro front back same
    cases front with
    | nil =>
        rw [List.append_nil]
        exact harmless (List.cons.inj same).1
    | cons head others =>
        obtain ⟨rfl, inner⟩ := List.cons.inj same
        have escaped := quoted.inside others back inner
        rwa [List.append_assoc] at escaped
  · rcases quoted.stops with rfl | ⟨rest, rfl, closed⟩
    · exact .inl rfl
    · rw [List.append_assoc] at closed
      exact .inr ⟨rest, rfl, closed⟩

theorem of_cons (quoted : Quoted quote before (byte :: text) (byte :: source)) :
    (byte = quote → escapes before = true) ∧
      Quoted quote (before ++ [byte]) text source := by
  refine ⟨fun same => ?_, ⟨fun front back inner => ?_, ?_⟩⟩
  · have escaped := quoted.inside [] text (congrArg (· :: text) same)
    rwa [List.append_nil] at escaped
  · rw [List.append_assoc]
    exact quoted.inside (byte :: front) back (congrArg (byte :: ·) inner)
  · rw [List.append_assoc]
    rcases quoted.stops with whole | ⟨rest, same, closed⟩
    · exact .inl (List.cons.inj whole).2
    · exact .inr ⟨rest, (List.cons.inj same).2, closed⟩

end Quoted

theorem quoted_quotedText (quote : UInt8) (before source : Bytes) :
    Quoted quote before (Piece.quotedText quote (escapes before) source)
      source := by
  induction source generalizing before with
  | nil => exact ⟨by simp [Piece.quotedText], .inl rfl⟩
  | cons byte rest inductionHypothesis =>
      have later := inductionHypothesis (before ++ [byte])
      rw [escapes_append_singleton] at later
      unfold Piece.quotedText
      cases escaped : escapes before with
      | true =>
          rw [escaped] at later
          exact later.cons fun _ => escaped
      | false =>
          rw [escaped] at later
          by_cases closing : byte = quote
          · rw [if_neg Bool.false_ne_true, if_pos closing, closing]
            refine ⟨by simp, .inr ⟨rest, rfl, ?_⟩⟩
            rw [List.append_nil]
            exact escaped
          · rw [if_neg Bool.false_ne_true, if_neg closing]
            exact later.cons fun same => absurd same closing

/-- No other text reaches to the same quote. -/
theorem Quoted.quotedText_eq {quote : UInt8} {before text source : Bytes}
    (quoted : Quoted quote before text source) :
    Piece.quotedText quote (escapes before) source = text := by
  -- What precedes the source grows by each byte of the text.
  induction source generalizing before text with
  | nil =>
      rcases quoted.stops with whole | ⟨rest, same, _⟩
      · rw [← whole]
        rfl
      · cases text <;> cases same
  | cons byte rest inductionHypothesis =>
      cases text with
      | nil =>
          rcases quoted.stops with whole | ⟨others, same, closes⟩
          · cases whole
          · rw [List.append_nil] at closes
            rw [Piece.quotedText, closes, (List.cons.inj same).1]
            simp
      | cons first others =>
          obtain rfl : byte = first := by
            rcases quoted.stops with whole | ⟨_, same, _⟩
            · exact (List.cons.inj whole).1
            · exact (List.cons.inj same).1
          obtain ⟨harmless, later⟩ := quoted.of_cons
          have inner := inductionHypothesis later
          rw [escapes_append_singleton] at inner
          rw [Piece.quotedText]
          cases escaped : escapes before with
          | true =>
              rw [escaped] at inner
              exact congrArg (byte :: ·) inner
          | false =>
              have open_ : byte ≠ quote := by
                intro same
                rw [harmless same] at escaped
                cases escaped
              rw [escaped] at inner
              rw [if_neg Bool.false_ne_true, if_neg open_]
              exact congrArg (byte :: ·) inner

/-! ### Comments -/

/-- The core of a text, with white space at both ends and at neither of its
own. -/
structure Trims (text core : Bytes) : Prop where
  split : ∃ left right, text = left ++ core ++ right ∧
    (∀ byte ∈ left, isSpace byte = true) ∧ ∀ byte ∈ right, isSpace byte = true
  head : ∀ byte ∈ core.head?, isSpace byte = false
  last : ∀ byte ∈ core.getLast?, isSpace byte = false

theorem isSpace_of_mem_takeWhile {text : Bytes} :
    ∀ byte ∈ text.takeWhile isSpace, isSpace byte = true :=
  List.all_eq_true.mp List.all_takeWhile

theorem trims_trim (text : Bytes) : Trims text (trim text) := by
  have whole : text.dropWhile isSpace =
      trim text
        ++ ((text.dropWhile isSpace).reverse.takeWhile isSpace).reverse := by
    rw [trim, ← List.reverse_append, List.takeWhile_append_dropWhile,
      List.reverse_reverse]
  constructor
  · refine ⟨text.takeWhile isSpace,
      ((text.dropWhile isSpace).reverse.takeWhile isSpace).reverse,
      ?_, isSpace_of_mem_takeWhile, ?_⟩
    · rw [List.append_assoc, ← whole, List.takeWhile_append_dropWhile]
    · intro byte member
      exact isSpace_of_mem_takeWhile byte (List.mem_reverse.mp member)
  · intro byte member
    apply head?_dropWhile_fails isSpace text
    rw [whole, List.head?_append, Option.mem_def.mp member]
    rfl
  · intro byte member
    rw [trim, List.getLast?_reverse] at member
    exact head?_dropWhile_fails isSpace _ byte member

theorem Trims.trim_eq {text core : Bytes} (trims : Trims text core) :
    trim text = core := by
  obtain ⟨⟨left, right, rfl, leftSpace, rightSpace⟩, head, last⟩ := trims
  cases core with
  | nil =>
      have spaces : ∀ byte ∈ left ++ right, isSpace byte = true :=
        List.forall_mem_append.mpr ⟨leftSpace, rightSpace⟩
      have blank : (left ++ right ++ []).dropWhile isSpace = [] :=
        dropWhile_append_of_stops spaces nofun
      rw [List.append_nil] at blank
      rw [List.append_nil, trim, blank]
      rfl
  | cons first others =>
      have front : (left ++ (first :: others ++ right)).dropWhile isSpace =
          first :: others ++ right :=
        dropWhile_append_of_stops leftSpace head
      have back : (right.reverse ++ (first :: others).reverse).dropWhile isSpace =
          (first :: others).reverse := by
        apply dropWhile_append_of_stops
        · exact fun byte member => rightSpace byte (List.mem_reverse.mp member)
        · rw [List.head?_reverse]
          exact last
      rw [trim, List.append_assoc, front, List.reverse_append, back,
        List.reverse_reverse]

theorem length_enclosedText_le {source front back : Bytes}
    (same : source = front ++ asterisk :: slash :: back) :
    (Piece.enclosedText source).length ≤ front.length := by
  induction source generalizing front with
  | nil => exact Nat.zero_le front.length
  | cons byte rest inductionHypothesis =>
      unfold Piece.enclosedText
      split
      · exact Nat.zero_le front.length
      · rename_i open_
        cases front with
        | nil =>
            obtain ⟨rfl, rfl⟩ := List.cons.inj same
            exact absurd ⟨rfl, rfl⟩ open_
        | cons first others =>
            exact Nat.succ_le_succ (inductionHypothesis (List.cons.inj same).2)

theorem enclosedText_stops (source : Bytes) :
    source = Piece.enclosedText source ∨
      ∃ rest, source = Piece.enclosedText source ++ asterisk :: slash :: rest := by
  induction source with
  | nil => exact .inl rfl
  | cons byte rest inductionHypothesis =>
      unfold Piece.enclosedText
      split
      · rename_i closing
        obtain ⟨rfl, next⟩ := closing
        obtain ⟨others, rfl⟩ := List.head?_eq_some_iff.mp next
        exact .inr ⟨others, rfl⟩
      · rcases inductionHypothesis with same | ⟨others, same⟩
        · exact .inl (congrArg _ same)
        · exact .inr ⟨others, congrArg _ same⟩

def ClosesFirst (text rest : Bytes) : Prop :=
  ∀ front back,
    text ++ asterisk :: slash :: rest = front ++ asterisk :: slash :: back →
      text.length ≤ front.length

def Unclosed (text : Bytes) : Prop :=
  ∀ front back, text ≠ front ++ asterisk :: slash :: back

theorem ClosesFirst.enclosedText_eq {text rest : Bytes}
    (first : ClosesFirst text rest) :
    Piece.enclosedText (text ++ asterisk :: slash :: rest) = text := by
  have short := length_enclosedText_le
    (rfl : text ++ asterisk :: slash :: rest = text ++ asterisk :: slash :: rest)
  rcases enclosedText_stops (text ++ asterisk :: slash :: rest) with
    whole | ⟨others, same⟩
  · rw [← whole, List.length_append, List.length_cons] at short
    omega
  · have long := first _ _ same
    exact (List.append_inj same.symm (Nat.le_antisymm short long)).1

theorem Unclosed.enclosedText_eq {text : Bytes} (unclosed : Unclosed text) :
    Piece.enclosedText text = text := by
  rcases enclosedText_stops text with whole | ⟨others, same⟩
  · exact whole.symm
  · exact absurd same (unclosed _ _)

end ScriptAudit
