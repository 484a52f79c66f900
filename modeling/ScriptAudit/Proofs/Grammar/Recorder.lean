/-
Productions with a list of reports.

A production that rejects a list hands its one problem to whoever called it. A
recorder shares a record of the tokens left and of all that was reported: it may
report at any time, and goes on or gives up as it likes. Every production is
carried out by a recorder, which reports where the production fails. It leaves
what the reply of the production says, so nothing is reported on the way out of
a production that an inner one has reported already.
-/

import ScriptAudit.Proofs.Grammar.Recovery

namespace ScriptAudit.Grammar

structure Record where
  rest : List Token
  /-- What ends the file; no recorder moves past it. -/
  finish : Token
  reported : List Diagnostic

namespace Record

def current (record : Record) : Token :=
  record.rest.head?.getD record.finish

def moved (record : Record) (rest : List Token) : Record :=
  { record with rest := rest }

/-- A report is about the token that is current when it is made. -/
def note (record : Record) (problem : Problem) : Record :=
  { record with
    reported := record.reported ++ [⟨problem, record.current⟩] }

/-- The record after a reply: a problem is noted at the token it was met at. -/
def reply {α : Type} (record : Record) : Reply α → Option α × Record
  | .accept value rest => (some value, record.moved rest)
  | .reject problem rest => (none, (record.moved rest).note problem)

theorem reply_moved {α : Type} (record : Record) (rest : List Token)
    (reply : Reply α) : (record.moved rest).reply reply = record.reply reply := by
  cases reply <;> rfl

end Record

/-- A recorder changes the record whether it returns a value or none. -/
abbrev Recorder (α : Type) : Type :=
  OptionT (StateM Record) α

namespace Recorder

variable {α β : Type}

def runOn (recorder : Recorder α) (record : Record) : Option α × Record :=
  recorder.run.run record

def next? : Recorder (Option Token) := do
  let record ← get
  return record.rest.head?

def advance : Recorder Unit :=
  modify fun record => record.moved record.rest.tail

def report (problem : Problem) : Recorder α := do
  modify fun record => record.note problem
  failure

def attempt (recorder : Recorder α) : Recorder (Option α) :=
  OptionT.mk (some <$> recorder.run)

theorem runOn_bind (recorder : Recorder α) (next : α → Recorder β)
    (record : Record) :
    (recorder >>= next).runOn record =
      match recorder.runOn record with
      | (some value, later) => (next value).runOn later
      | (none, later) => (none, later) := by
  simp only [runOn, OptionT.run_bind, Option.elimM, StateT.run_bind]
  rcases recorder.run.run record with ⟨_ | value, later⟩ <;> rfl

-- A recorder that tries again where it has given up reports both times.
example :
    ((do
      let _ ← attempt (report .unexpected : Recorder Unit)
      report .unexpected : Recorder Unit).runOn
        ⟨[], Token.finish .start, []⟩).2.reported.length = 2 :=
  rfl

end Recorder

open Recorder

def Production.record : {α : Type} → Production α → Recorder α
  | _, .done value => pure value
  | _, .fail problem => report problem
  | _, .exhausted => report .unexpected
  | _, .peek => next?
  | _, .advance => Recorder.advance
  | _, .delayed production => (production ()).record
  | _, .advancing production => production.record
  | _, .andThen first next => first.record >>= fun value => (next value).record

/-- The recorder of a production leaves what the reply of the production says. -/
theorem Production.runOn_record {α : Type} (production : Production α)
    (record : Record) :
    production.record.runOn record = record.reply (production record.rest) := by
  induction production generalizing record with
  | done value | fail problem | exhausted | peek | advance => rfl
  | delayed production inductionHypothesis => exact inductionHypothesis () record
  | advancing production inductionHypothesis => exact inductionHypothesis record
  | andThen first next firstRecords nextRecords =>
      rw [Production.record, runOn_bind, firstRecords, Production.reply]
      cases first record.rest with
      | reject problem rest => rfl
      | accept value rest =>
          rw [Record.reply]
          dsimp only
          rw [nextRecords, record.reply_moved]
          rfl

namespace Recorder

/-! ### Programs -/

def round (budget : Nat) : Recorder (Option Statement) := do
  match ← attempt (statement budget).record with
  | some content => return some content
  | none =>
      (synchronize budget).record
      return none

def statements : (budget : Nat) → Recorder (List Statement)
  | 0 => return []
  | budget + 1 => do
      match ← next? with
      | none => return []
      | some _ =>
          let kept ← round (budget + 1)
          let others ← statements budget
          return kept.toList ++ others

def parse (all : List Token) : Parsed :=
  let stream := Token.Stream.ofTokens all
  let start : Record :=
    { rest := stream.tokens
      finish := stream.finish
      reported := [] }
  let (body, final) := (statements (stream.tokens.length + 1)).runOn start
  { program := ⟨body.getD []⟩
    diagnostics := final.reported }

def afterRound (budget : Nat) (record : Record) :
    Reply Statement → Option Statement × Record
  | .accept content rest => (some content, record.moved rest)
  | .reject problem rest =>
      (none, ((record.moved rest).note problem).moved
        (synchronize budget rest).rest)

theorem runOn_round {budget : Nat} {record : Record}
    (enough : record.rest.length ≤ budget) (positive : 0 < budget) :
    (round budget).runOn record =
      (some (afterRound budget record (statement budget record.rest)).1,
        (afterRound budget record (statement budget record.rest)).2) := by
  have attempted : (attempt (statement budget).record).runOn record =
      (some (record.reply (statement budget record.rest)).1,
        (record.reply (statement budget record.rest)).2) := by
    rw [← Production.runOn_record]
    rfl
  rw [round, runOn_bind, attempted]
  cases reply : statement budget record.rest with
  | accept content rest => rfl
  | reject problem rest =>
      have bound := (Production.suffix_of_reject reply).length_le
      have resumed := synchronize_eq_accept (Nat.le_trans bound enough) positive
      have skipped : (synchronize budget).record.runOn
            ((record.moved rest).note problem) =
          (some (), ((record.moved rest).note problem).moved
            (synchronize budget rest).rest) := by
        rw [Production.runOn_record]
        exact congrArg ((record.moved rest).note problem).reply resumed
      simp only [Record.reply, runOn_bind, skipped]
      rfl

def afterItems (record : Record) (rest : List Token) (list : List Item) :
    Record :=
  { record with
    rest := rest
    reported := record.reported ++ list.filterMap Item.diagnostic? }

theorem afterItems_nil (record : Record) :
    afterItems record record.rest [] = record := by
  rw [afterItems, List.filterMap_nil, List.append_nil]

theorem afterItems_dropped (record : Record) (problem : Problem)
    (following rest : List Token) (list : List Item) :
    afterItems ((record.note problem).moved following) rest list =
      afterItems record rest (.dropped ⟨problem, record.current⟩ :: list) := by
  simp only [afterItems, Record.note, Record.moved, List.append_assoc]
  rfl

/-- The loop over the statements returns those that are kept, and has reported a
problem for each stretch that is dropped. -/
theorem runOn_statements {budget : Nat} {record : Record}
    (enough : record.rest.length ≤ budget) :
    ∃ rest, (statements budget).runOn record =
      (some ((items record.finish budget record.rest).filterMap Item.statement?),
        afterItems record rest (items record.finish budget record.rest)) := by
  induction budget generalizing record with
  | zero =>
      refine ⟨record.rest, ?_⟩
      rw [items, afterItems_nil]
      rfl
  | succ budget inductionHypothesis =>
      rw [statements, runOn_bind]
      have looked : next?.runOn record = (some record.rest.head?, record) := rfl
      rw [looked]
      have round := runOn_round enough (Nat.zero_lt_succ budget)
      cases left : record.rest with
      | nil =>
          refine ⟨record.rest, ?_⟩
          simp only [items, afterItems_nil]
          rfl
      | cons token others =>
          rw [left] at round enough
          simp only [List.head?_cons, items, runOn_bind, round]
          cases reply : statement (budget + 1) (token :: others) with
          | accept content rest =>
              have taken := (statement_sound _ reply).length_lt rfl
              obtain ⟨final, rounds⟩ := @inductionHypothesis (record.moved rest)
                (Nat.le_of_lt_succ (Nat.lt_of_lt_of_le taken enough))
              refine ⟨final, ?_⟩
              simp only [afterRound, rounds]
              rfl
          | reject problem rest =>
              -- Rejected where it begins, a statement leaves all to recovery.
              have bound := (Production.suffix_of_reject reply).length_le
              have shorter := length_synchronize_lt (budget + 1) bound
                (Nat.zero_lt_succ _)
              obtain ⟨final, rounds⟩ := @inductionHypothesis
                (((record.moved rest).note problem).moved
                  (synchronize (budget + 1) rest).rest)
                (Nat.le_of_lt_succ (Nat.lt_of_lt_of_le shorter enough))
              refine ⟨final, ?_⟩
              simp only [afterRound, rounds, afterItems_dropped]
              rfl

/-- The recorders report what the productions reject, and read the same. -/
theorem parse_eq_parseTokens (all : List Token) : parse all = parseTokens all := by
  obtain ⟨rest, finished⟩ := @runOn_statements
    ((Token.Stream.ofTokens all).tokens.length + 1)
    { rest := (Token.Stream.ofTokens all).tokens
      finish := (Token.Stream.ofTokens all).finish
      reported := [] }
    (Nat.le_succ _)
  simp only [parse, finished]
  rfl

end Recorder

end ScriptAudit.Grammar
