/-
Progress under the cursor.

A vector is cut at its first end-of-file token; the tokens before it are what a
production is given, and the number of those that it has taken off is where the
cursor stands. A reader that follows a production moves as the production replies,
wherever the production is safe: then no fuel is spent and every node has a token
of its own. So a vector with a token that ends the file is read without a fault.
-/

import Mathlib.Data.List.TakeWhile
import ScriptAudit.Proofs.Grammar.Budget
import ScriptAudit.Proofs.Grammar.Cursor

namespace ScriptAudit

namespace Grammar

namespace Cursor

/-- A vector cut at its first end-of-file token. -/
structure Tape where
  tokens : List Token
  finish : Token
  beyond : List Token
  unfinished : ∀ token ∈ tokens, token.kind ≠ .endOfFile
  finishes : finish.kind = .endOfFile

namespace Tape

def vector (tape : Tape) : List Token :=
  tape.tokens ++ tape.finish :: tape.beyond

/-- Where the cursor stands when the tokens left are `rest`. -/
def place (tape : Tape) (rest : List Token) : Nat :=
  tape.tokens.length - rest.length

def under (tape : Tape) (rest : List Token) : Token :=
  rest.head?.getD tape.finish

@[simp] theorem under_nil (tape : Tape) : tape.under [] = tape.finish :=
  rfl

@[simp] theorem under_cons (tape : Tape) (token : Token) (rest : List Token) :
    tape.under (token :: rest) = token :=
  rfl

def motion (tape : Tape) {α : Type} : Reply α → Motion α
  | .accept value rest => .returns value (tape.place rest)
  | .reject problem rest =>
      .refuses { problem := problem, found := tape.under rest } (tape.place rest)

open Production (suffix_of_accept suffix_of_reject)

variable {tape : Tape} {rest : List Token} {token : Token}

theorem firstFinish_vector (tape : Tape) :
    firstFinish tape.vector = tape.tokens.length := by
  have missing : tape.tokens.findIdx Token.Stream.isFinish =
      tape.tokens.length := by
    apply List.findIdx_eq_length_of_false
    intro token member
    simp [Token.Stream.isFinish, tape.unfinished token member]
  have found : Token.Stream.isFinish tape.finish = true := by
    simp [Token.Stream.isFinish, tape.finishes]
  rw [firstFinish, vector, List.findIdx_append, missing, List.findIdx_cons, found]
  simp

theorem getElem?_vector (suffix : rest <:+ tape.tokens) :
    tape.vector[tape.place rest]? = some (tape.under rest) := by
  obtain ⟨front, same⟩ := suffix
  have place : tape.place rest = front.length := by
    rw [Tape.place, ← same, List.length_append, Nat.add_sub_cancel]
  have split : tape.vector = front ++ (rest ++ tape.finish :: tape.beyond) := by
    rw [vector, ← same, List.append_assoc]
  rw [place, split, List.getElem?_append_right (Nat.le_refl _), Nat.sub_self]
  cases rest <;> rfl

theorem place_tokens (tape : Tape) : tape.place tape.tokens = 0 :=
  Nat.sub_self _

theorem place_cons (suffix : token :: rest <:+ tape.tokens) :
    tape.place (token :: rest) + 1 = tape.place rest := by
  have bound := suffix.length_le
  simp only [place, List.length_cons] at bound ⊢
  omega

theorem place_lt {fewer : List Token} (suffix : rest <:+ tape.tokens)
    (shorter : fewer.length < rest.length) :
    tape.place rest < tape.place fewer := by
  have bound := suffix.length_le
  unfold place
  omega

theorem place_le (tape : Tape) (rest : List Token) :
    tape.place rest ≤ firstFinish tape.vector := by
  rw [firstFinish_vector]
  exact Nat.sub_le _ _

theorem peek_vector (suffix : rest <:+ tape.tokens) :
    peek tape.vector (tape.place rest) =
      .returns (tape.under rest) (tape.place rest) := by
  simp only [peek, getElem?_vector suffix, if_pos (tape.place_le rest)]

theorem isFinish_under (suffix : rest <:+ tape.tokens) :
    Token.Stream.isFinish (tape.under rest) = rest.isEmpty := by
  cases rest with
  | nil => simp [Token.Stream.isFinish, tape.finishes]
  | cons token rest =>
      simp [Token.Stream.isFinish,
        tape.unfinished token (suffix.subset List.mem_cons_self)]

theorem atEnd_vector (suffix : rest <:+ tape.tokens) :
    atEnd tape.vector (tape.place rest) =
      .returns rest.isEmpty (tape.place rest) := by
  rw [atEnd, bind_apply, peek_vector suffix, ← isFinish_under suffix]
  rfl

theorem step_vector (suffix : token :: rest <:+ tape.tokens) :
    step tape.vector (tape.place (token :: rest)) =
      .returns () (tape.place rest) := by
  rw [step, place_cons suffix, if_pos (tape.place_le rest)]

theorem next?_vector (suffix : rest <:+ tape.tokens) :
    next? tape.vector (tape.place rest) =
      .returns rest.head? (tape.place rest) := by
  rw [next?, bind_apply, peek_vector suffix, Motion.bind_returns,
    isFinish_under suffix]
  cases rest <;> rfl

theorem advance_vector (suffix : rest <:+ tape.tokens) :
    advance tape.vector (tape.place rest) =
      .returns () (tape.place rest.tail) := by
  rw [advance, bind_apply, atEnd_vector suffix, Motion.bind_returns]
  cases rest with
  | nil => rfl
  | cons token rest => exact step_vector suffix

theorem refuse_vector {α : Type} (suffix : rest <:+ tape.tokens)
    (problem : Problem) :
    (refuse problem : Reader α) tape.vector (tape.place rest) =
      tape.motion (.reject problem rest) := by
  show (peek tape.vector (tape.place rest)).bind _ = _
  rw [peek_vector suffix]
  rfl

theorem advancing_vector {α : Type} {reader : Reader α} {reply : Reply α}
    (moves : reader tape.vector (tape.place rest) = tape.motion reply)
    (suffix : rest <:+ tape.tokens)
    (shorter : ∀ value left, reply = .accept value left →
      left.length < rest.length) :
    advancing reader tape.vector (tape.place rest) = tape.motion reply := by
  rw [advancing, moves]
  cases reply with
  | reject problem left => rfl
  | accept value left =>
      exact if_pos (place_lt suffix (shorter value left rfl))

/-- Where the production is safe, the reader moves as it replies. -/
theorem follow_vector {α : Type} (production : Production α)
    (suffix : rest <:+ tape.tokens) (safe : production.Safe rest) :
    follow production tape.vector (tape.place rest) =
      tape.motion (production rest) := by
  induction production generalizing rest with
  | done value => rfl
  | fail problem => exact refuse_vector suffix problem
  | exhausted => exact safe.elim
  | peek => exact next?_vector suffix
  | advance => exact advance_vector suffix
  | delayed production inductionHypothesis =>
      exact inductionHypothesis () suffix safe
  | advancing production inductionHypothesis =>
      obtain ⟨inner, shorter⟩ := safe
      exact advancing_vector (inductionHypothesis suffix inner) suffix shorter
  | andThen first next firstMoves nextMoves =>
      obtain ⟨begins, continues⟩ := safe
      rw [follow, bind_apply, firstMoves suffix begins, Production.reply]
      cases reply : first rest with
      | reject problem left => rfl
      | accept value left =>
          exact nextMoves value ((suffix_of_accept reply).trans suffix)
            (continues value left reply)

/-- One round of the statement loop, from any place but the end: it yields the
next item and moves the cursor to where the other items begin. -/
theorem item_vector {token : Token} {rest : List Token} {fuel : Nat}
    (suffix : token :: rest <:+ tape.tokens)
    (enough : (token :: rest).length < fuel + 1) :
    ∃ first left,
      item (fuel + 1) tape.vector (tape.place (token :: rest)) =
          .returns first (tape.place left) ∧
        left <:+ tape.tokens ∧ left.length < (token :: rest).length ∧
          Grammar.items tape.finish (fuel + 1) (token :: rest) =
            first :: Grammar.items tape.finish fuel left := by
  have safe := (alike_statement enough enough (token :: rest)
    (Nat.lt_succ_self _)).safe
  have moves := follow_vector _ suffix safe
  simp only [item, advancing, recovering, bind_apply, moves, Grammar.items]
  cases reply : statement (fuel + 1) (token :: rest) with
  | accept content left =>
      have shorter := (statement_sound _ reply).length_lt rfl
      exact ⟨.kept content, left, if_pos (place_lt suffix shorter),
        (suffix_of_accept reply).trans suffix, shorter, rfl⟩
  | reject problem left =>
      have onTape := (suffix_of_reject reply).trans suffix
      have bound := (suffix_of_reject reply).length_le
      -- A statement may be rejected at its first token; dropping that one token
      -- is then the only progress.
      have resumed := follow_vector (synchronize (fuel + 1)) onTape
        (alike_synchronize enough enough left (Nat.lt_succ_of_le bound)).safe
      rw [synchronize_eq_accept (by omega) (Nat.zero_lt_succ fuel)] at resumed
      have resumes := (synchronize (fuel + 1)).confined left
      have shorter := length_synchronize_lt (fuel + 1) bound
        (Nat.zero_lt_succ _)
      refine ⟨.dropped { problem := problem, found := tape.under left },
        (synchronize (fuel + 1) left).rest, ?_, resumes.trans onTape, shorter,
        rfl⟩
      simp only [motion, Motion.bind, resumed]
      exact if_pos (place_lt suffix shorter)

theorem items_vector {rest : List Token} {fuel : Nat}
    (suffix : rest <:+ tape.tokens) (enough : rest.length < fuel) :
    items fuel tape.vector (tape.place rest) =
      .returns (Grammar.items tape.finish fuel rest) (tape.place []) := by
  induction fuel generalizing rest with
  | zero => exact absurd enough (Nat.not_lt_zero _)
  | succ fuel inductionHypothesis =>
      rw [items, bind_apply, atEnd_vector suffix]
      cases rest with
      | nil => rfl
      | cons token rest =>
          obtain ⟨first, left, round, onTape, shorter, same⟩ :=
            item_vector suffix enough
          have others := inductionHypothesis onTape (by omega)
          simp only [Motion.bind_returns, List.isEmpty_cons,
            Bool.false_eq_true, if_false, bind_apply, round, others, same,
            pure_apply]

/-- Within fuel for one round more than there are tokens before its first
end-of-file token, a vector is read without a fault and up to that token. -/
theorem parse_vector (tape : Tape) {fuel : Nat}
    (enough : tape.tokens.length < fuel) :
    parse fuel tape.vector =
      .returns
        (Parsed.ofStream { tokens := tape.tokens, finish := tape.finish })
        tape.tokens.length := by
  have read := items_vector (List.suffix_refl tape.tokens) enough
  rw [place_tokens, items_budget tape.finish enough (Nat.lt_succ_self _)] at read
  rw [parse, read]
  rfl

-- A vector that no token closes is left, and with less fuel a loop runs out.
example : parse 9 [⟨.identifier, "x", .start⟩] = .faults .outOfRange := rfl

example :
    parse 1 [⟨.identifier, "x", .start⟩, Token.finish .start] =
      .faults .exhausted :=
  rfl

end Cursor.Tape

end Grammar

open Grammar

/-! ### Token lists -/

theorem Token.closed_eq_append (all : List Token) :
    ∃ beyond, closed all =
      (Stream.ofTokens all).tokens ++ (Stream.ofTokens all).finish :: beyond := by
  simp only [closed, Stream.ofTokens]
  generalize all.filter (fun token => !token.kind.isTrivia) = significant
  have parts := @List.takeWhile_append_dropWhile _
    (fun token => !Stream.isFinish token) significant
  rw [List.find?_eq_head?_dropWhile_not]
  cases remaining : significant.dropWhile fun token => !Stream.isFinish token with
  | nil =>
      have missing : significant.getLast?.any Stream.isFinish = false := by
        have unfinished := List.dropWhile_eq_nil_iff.mp remaining
        cases last : significant.getLast? with
        | none => rfl
        | some token =>
            simpa using unfinished token (List.mem_of_getLast? last)
      rw [remaining, List.append_nil] at parts
      rw [parts, missing]
      exact ⟨[], rfl⟩
  | cons finish back =>
      rw [remaining] at parts
      have longer (more : List Token) :
          significant ++ more =
            significant.takeWhile (fun token => !Stream.isFinish token) ++
              finish :: (back ++ more) := by
        rw [← List.cons_append, ← List.append_assoc, parts]
      split
      · exact ⟨back, parts.symm⟩
      · exact ⟨back ++ _, longer _⟩

theorem exists_tape (all : List Token) :
    ∃ tape : Cursor.Tape, tape.vector = Token.closed all ∧
      tape.tokens = (Token.Stream.ofTokens all).tokens ∧
        tape.finish = (Token.Stream.ofTokens all).finish := by
  obtain ⟨beyond, same⟩ := Token.closed_eq_append all
  have unfinished : ∀ token ∈ (Token.Stream.ofTokens all).tokens,
      token.kind ≠ .endOfFile := by
    intro token member
    simpa [Token.Stream.isFinish] using List.mem_takeWhile_imp member
  exact ⟨⟨_, _, beyond, unfinished, Token.Stream.finish_kind all⟩, same.symm,
    rfl, rfl⟩

theorem Token.Stream.ofTokens_finished (front back : List Token) {finish : Token}
    (ends : finish.kind = .endOfFile) :
    ofTokens (front ++ [finish] ++ back) = ofTokens (front ++ [finish]) := by
  have finishes : isFinish finish = true := by
    rw [isFinish, ends]
    rfl
  have significant : (!finish.kind.isTrivia) = true := by
    rw [ends]
    rfl
  simp only [ofTokens, List.filter_append, List.filter_cons, List.filter_nil,
    significant, if_true, List.append_assoc, List.cons_append, List.nil_append,
    List.takeWhile_append, List.takeWhile_cons, List.find?_append,
    List.find?_cons, finishes]
  rfl

/--
Whatever the tokens, reading them under a cursor, with fuel for one round more
than there are tokens before the first end-of-file token, raises no fault and
ends at that token with the program and the diagnostics of the token list. What
stands after an end-of-file token changes neither.
-/
theorem parseTokens_underCursor :
    (∀ (all : List Token) (fuel : Nat),
      Cursor.firstFinish (Token.closed all) < fuel →
        Cursor.firstFinish (Token.closed all) < (Token.closed all).length ∧
          Cursor.parse fuel (Token.closed all) =
            .returns (parseTokens all) (Cursor.firstFinish (Token.closed all))) ∧
      ∀ (front back : List Token) (finish : Token),
        finish.kind = .endOfFile →
          parseTokens (front ++ [finish] ++ back) =
            parseTokens (front ++ [finish]) := by
  constructor
  · intro all fuel enough
    obtain ⟨tape, vector, tokens, finish⟩ := exists_tape all
    rw [← vector, Cursor.Tape.firstFinish_vector] at enough ⊢
    constructor
    · simp [Cursor.Tape.vector]
    · rw [tape.parse_vector enough, tokens, finish]
      rfl
  · intro front back finish ends
    rw [parseTokens, Token.Stream.ofTokens_finished front back ends]
    rfl

/-- A call whose closing parenthesis comes after the end of the file. -/
def interruptedCall : List Token :=
  [⟨.identifier, "f", .start⟩, ⟨.leftParen, "(", ⟨1, 2⟩⟩,
    Token.finish ⟨1, 3⟩, ⟨.rightParen, ")", ⟨1, 3⟩⟩]

theorem parseTokens_underCursor_interruptedCall :
    Cursor.firstFinish (Token.closed interruptedCall) < 3 ∧
      Cursor.parse 3 (Token.closed interruptedCall) =
        .returns (parseTokens (interruptedCall.take 3)) 2 := by
  obtain ⟨reads, cut⟩ := parseTokens_underCursor
  have enough : Cursor.firstFinish (Token.closed interruptedCall) < 3 := by
    decide
  have read := (reads interruptedCall 3 enough).2
  have same : parseTokens interruptedCall =
      parseTokens (interruptedCall.take 3) :=
    cut (interruptedCall.take 2) (interruptedCall.drop 3) (Token.finish ⟨1, 3⟩)
      rfl
  rw [same] at read
  exact ⟨enough, read⟩

end ScriptAudit
