/-
Diagnostics advance and do not cascade. The recorder of a production that returns
a node has reported nothing, and one that gives up has reported once, at the token
it gave up at. Between two reports recovery passes the token of the first, so the
diagnostics of a source stand one after the other, each at a token of its own.
-/

import Mathlib.Data.List.TakeWhile
import ScriptAudit.Proofs.Grammar.Recorder
import ScriptAudit.Proofs.Token.Order

namespace ScriptAudit

namespace Diagnostic

def placeText (position : Position) : Bytes :=
  "line " ++ Bytes.decimal position.line ++ ":"
    ++ Bytes.decimal position.column

theorem placeText_suffix_describe (token : Token) :
    placeText token.position <:+ describe token := by
  have marks : (") at line " : Bytes) = ") at " ++ "line " := by decide
  refine ⟨token.kind.name ++ "(" ++ token.lexeme ++ ") at ", ?_⟩
  simp only [placeText, describe, marks, List.append_assoc]

theorem placeText_suffix_message (diagnostic : Diagnostic) :
    placeText diagnostic.position <:+ diagnostic.message := by
  have described := placeText_suffix_describe diagnostic.found
  unfold message
  split
  · exact described.trans (List.suffix_append _ _)
  · exact described.trans (List.suffix_append _ _)

end Diagnostic

namespace Grammar

namespace Recorder

variable {α : Type}

/-- Whoever returns a value has reported nothing. Whoever returns none has reported
one diagnostic: it stands at the token that is current now, and its message ends in
the place of that token. -/
def ReportsOnce (recorder : Recorder α) : Prop :=
  ∀ record,
    match recorder.runOn record with
    | (some _, final) => final.reported = record.reported
    | (none, final) =>
        ∃ diagnostic, final.reported = record.reported ++ [diagnostic] ∧
          diagnostic.position = final.current.position ∧
            Diagnostic.placeText final.current.position <:+ diagnostic.message

end Recorder

/-- What is rejected is reported once, however deep in the production it is. -/
theorem Production.reportsOnce {α : Type} (production : Production α) :
    production.record.ReportsOnce := by
  intro record
  rw [production.runOn_record]
  cases production record.rest with
  | accept value rest => rfl
  | reject problem rest =>
      have ends := Diagnostic.placeText_suffix_message
        ⟨problem, (record.moved rest).current⟩
      exact ⟨_, rfl, rfl, ends⟩

theorem Partition.length_le {finish : Token} {segments : List Segment}
    {tokens : List Token} (partition : Partition finish segments tokens) :
    segments.length ≤ tokens.length := by
  induction partition with
  | nil => exact Nat.le_refl 0
  | cons nonempty _ _ inductionHypothesis =>
      have positive := List.length_pos_iff.mpr nonempty
      rw [List.length_cons, List.length_append]
      omega

/-- The tokens that diagnostics show are tokens of the list or the one that ends
it, in the order of the list and none of them twice. -/
theorem Partition.found_sublist {finish : Token} {segments : List Segment}
    {tokens : List Token} (partition : Partition finish segments tokens) :
    ((segments.filterMap Segment.diagnostic?).map Diagnostic.found).Sublist
      (tokens ++ [finish]) := by
  induction partition with
  | nil => exact List.nil_sublist _
  | @cons segment segments following _ justified others inductionHypothesis =>
      rw [List.append_assoc]
      cases segment with
      | kept front content =>
          exact inductionHypothesis.trans (List.sublist_append_right _ _)
      | dropped unread offending skipped diagnostic =>
          cases offending with
          | some token =>
              obtain ⟨rfl, _⟩ := justified
              have shown : [diagnostic.found].Sublist
                  (unread ++ [diagnostic.found] ++ skipped) :=
                List.singleton_sublist.mpr (by simp)
              exact shown.append inductionHypothesis
          | none =>
              obtain ⟨rfl, rfl, rfl⟩ := justified
              obtain rfl := List.eq_nil_of_length_eq_zero
                (Nat.le_zero.mp others.length_le)
              exact List.sublist_append_right _ _

theorem length_statements_add_diagnostics (segments : List Segment) :
    (segments.filterMap Segment.statement?).length +
        (segments.filterMap Segment.diagnostic?).length =
      segments.length := by
  induction segments with
  | nil => rfl
  | cons segment segments inductionHypothesis =>
      cases segment with
      | kept front content =>
          change (segments.filterMap Segment.statement?).length + 1 +
            (segments.filterMap Segment.diagnostic?).length = segments.length + 1
          omega
      | dropped unread offending skipped diagnostic =>
          change (segments.filterMap Segment.statement?).length +
            ((segments.filterMap Segment.diagnostic?).length + 1) =
              segments.length + 1
          omega

end Grammar

open Grammar

/-! ### Sources -/

theorem Token.Stream.finish_tokenize (source : Bytes) :
    (ofTokens (tokenize source)).finish = Token.finish (placeAfter source) := by
  have unfinished : (ofTokens (tokenize source)).tokens.find? isFinish = none := by
    rw [List.find?_eq_none]
    intro token member
    simpa using List.mem_takeWhile_imp member
  show ((significant source).find? isFinish).getD _ = _
  rw [significant_eq_append, List.find?_append, unfinished]
  rfl

theorem found_sublist_significant (source : Bytes) :
    ((parse source).diagnostics.map Diagnostic.found).Sublist
      (significant source) := by
  obtain ⟨segments, partition, _, diagnostics⟩ :=
    parseTokens_segments (tokenize source)
  rw [significant_eq_append, ← Token.Stream.finish_tokenize, parse,
    ← diagnostics]
  exact partition.found_sublist

theorem inOrder_significant (source : Bytes) : InOrder (significant source) :=
  (inOrder_tokenize source).sublist List.filter_sublist

/--
Whatever production of the grammar is carried out, its recorder has reported
nothing if it returns a value, and one diagnostic, at the token it has come to, if
it returns none. The recorders of statements read any tokens as they are parsed.
So the diagnostics of a source come in strictly increasing order, each at a token
that carries meaning or at the end of file, and with the statements they are at
most as many as the tokens before that.
-/
theorem diagnostics_advance :
    (∀ {α : Type} (production : Production α), production.record.ReportsOnce) ∧
      (∀ all, Recorder.parse all = parseTokens all) ∧
      ∀ source,
        ((parse source).diagnostics.Pairwise fun first second =>
            first.position < second.position) ∧
          (∀ diagnostic ∈ (parse source).diagnostics,
            ∃ token ∈ significant source,
              token.position = diagnostic.position) ∧
          (parse source).program.body.length +
              (parse source).diagnostics.length ≤
            (Token.Stream.ofTokens (tokenize source)).tokens.length := by
  refine ⟨Production.reportsOnce, Recorder.parse_eq_parseTokens, ?_⟩
  intro source
  have shown := found_sublist_significant source
  have ordered := (inOrder_significant source).sublist shown
  rw [InOrder, List.pairwise_map] at ordered
  refine ⟨ordered, ?_, ?_⟩
  · intro diagnostic member
    have found := List.mem_map_of_mem (f := Diagnostic.found) member
    exact ⟨diagnostic.found, shown.subset found, rfl⟩
  · obtain ⟨segments, partition, statements, diagnostics⟩ :=
      parseTokens_segments (tokenize source)
    rw [parse, ← statements, ← diagnostics, length_statements_add_diagnostics]
    exact partition.length_le

/-- A name is missing, and then the condition is, at the end of the file. -/
theorem diagnostics_advance_toEnd :
    (parse "var 1; x; if (").diagnostics.map Diagnostic.position =
        [⟨1, 5⟩, ⟨1, 15⟩] ∧
      (∀ keyword,
        (conditional 3 (statement 3) keyword).record.ReportsOnce) ∧
      (parse "var 1; x; if (").diagnostics.Pairwise (fun first second =>
        first.position < second.position) ∧
      (parse "var 1; x; if (").program.body.length +
          (parse "var 1; x; if (").diagnostics.length ≤ 7 := by
  obtain ⟨once, _, advance⟩ := diagnostics_advance
  obtain ⟨ordered, _, bounded⟩ := advance "var 1; x; if ("
  have count : (Token.Stream.ofTokens
      (tokenize "var 1; x; if (")).tokens.length = 7 := by
    decide +kernel
  rw [count] at bounded
  exact ⟨by decide +kernel, fun _ => once _, ordered, bounded⟩

end ScriptAudit
