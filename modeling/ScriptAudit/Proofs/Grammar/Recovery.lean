/-
Recovery. Reading a program cuts its tokens into consecutive stretches. A kept
stretch derives one statement of the program. A dropped one accounts for one
diagnostic: up to the offending token it is what could not be read, and after
that token it is what recovery skips.
-/

import ScriptAudit.Proofs.Grammar.Soundness

namespace ScriptAudit

namespace Grammar

/--
What recovery skips after an offending token: nothing that starts a statement,
and no semicolon but a last one. It stops for a reason: after a semicolon, in
front of a keyword that starts a statement, or at the end.
-/
structure Skips (skipped following : List Token) : Prop where
  startsNone : ∀ token ∈ skipped, startsStatement token = false
  semicolonLast : ∀ token ∈ skipped.dropLast, token.kind ≠ .semicolon
  stopsFor : (∃ mark ∈ skipped.getLast?, mark.kind = .semicolon) ∨
    following = [] ∨ begins startsStatement following = true

theorem startsStatement_of_semicolon {token : Token}
    (kind : token.kind = .semicolon) : startsStatement token = false := by
  simp [startsStatement, Token.isSpelled, kind]

theorem Skips.cons {token : Token} {skipped following : List Token}
    (notSemicolon : token.kind ≠ .semicolon)
    (notStarting : startsStatement token = false)
    (skips : Skips skipped following) : Skips (token :: skipped) following := by
  cases skipped with
  | nil =>
      refine ⟨by simpa using notStarting, by simp, ?_⟩
      rcases skips.stopsFor with ⟨mark, last, _⟩ | stops
      · cases last
      · exact .inr stops
  | cons second others =>
      refine ⟨?_, ?_, ?_⟩
      · intro other member
        rcases List.mem_cons.mp member with rfl | later
        · exact notStarting
        · exact skips.startsNone other later
      · intro other member
        rw [List.dropLast_cons_cons] at member
        rcases List.mem_cons.mp member with rfl | later
        · exact notSemicolon
        · exact skips.semicolonLast other later
      · rw [List.getLast?_cons_cons]
        exact skips.stopsFor

theorem skipStatement_skips {budget : Nat} {tokens : List Token}
    (enough : tokens.length < budget) :
    ∃ skipped following, skipStatement budget tokens = .accept () following ∧
      tokens = skipped ++ following ∧ Skips skipped following := by
  induction budget generalizing tokens with
  | zero => exact absurd enough (Nat.not_lt_zero _)
  | succ budget inductionHypothesis =>
      cases tokens with
      | nil =>
          exact ⟨[], [], rfl, rfl, by simp, by simp, .inr (.inl rfl)⟩
      | cons token rest =>
          rw [skipStatement, Production.onNext_cons]
          split
          · rename_i kind
            refine ⟨[token], rest, rfl, rfl, ?_, by simp, .inl ⟨token, rfl, kind⟩⟩
            simpa using startsStatement_of_semicolon kind
          · rename_i notSemicolon
            split
            · rename_i starts
              exact ⟨[], token :: rest, rfl, rfl, by simp, by simp,
                .inr (.inr starts)⟩
            · rename_i notStarting
              obtain ⟨skipped, following, read, rfl, skips⟩ :=
                inductionHypothesis (Nat.lt_of_succ_lt_succ enough)
              refine ⟨token :: skipped, following, read, rfl,
                skips.cons notSemicolon ?_⟩
              simpa using notStarting

theorem synchronize_eq_accept {budget : Nat} {rest : List Token}
    (enough : rest.length ≤ budget) (positive : 0 < budget) :
    synchronize budget rest = .accept () (synchronize budget rest).rest := by
  have fewer : rest.tail.length < budget := by
    rw [List.length_tail]
    omega
  obtain ⟨_, following, read, _⟩ := skipStatement_skips fewer
  have resumed : synchronize budget rest = .accept () following := read
  rw [resumed, Reply.rest]

/-- The offending token is dropped, so there are fewer left than before. -/
theorem length_synchronize_lt (budget : Nat) {rest : List Token} {size : Nat}
    (bound : rest.length ≤ size) (positive : 0 < size) :
    (synchronize budget rest).rest.length < size := by
  have fewer : (synchronize budget rest).rest.length ≤ rest.tail.length :=
    ((skipStatement budget).confined rest.tail).length_le
  rw [List.length_tail] at fewer
  omega

/-! ### Segments -/

/--
A stretch of tokens with what it came to. In a dropped one the offending token
is absent when the problem was the end of the list.
-/
inductive Segment where
  | kept (tokens : List Token) (statement : Statement)
  | dropped (unread : List Token) (offending : Option Token)
      (skipped : List Token) (diagnostic : Diagnostic)

namespace Segment

def tokens : Segment → List Token
  | kept tokens _ => tokens
  | dropped unread offending skipped _ =>
      unread ++ offending.toList ++ skipped

def item : Segment → Item
  | kept _ statement => .kept statement
  | dropped _ _ _ diagnostic => .dropped diagnostic

def statement? (segment : Segment) : Option Statement :=
  segment.item.statement?

def diagnostic? (segment : Segment) : Option Diagnostic :=
  segment.item.diagnostic?

/--
A segment in front of `following` is justified if it derives the statement that
was kept, or if its diagnostic shows the offending token and the rest of it was
skipped with reason. At the end of the list the diagnostic shows `finish`.
-/
def Justified (finish : Token) (following : List Token) : Segment → Prop
  | kept tokens statement => Derives (.statement statement) tokens
  | dropped _ (some token) skipped diagnostic =>
      diagnostic.found = token ∧ Skips skipped following
  | dropped _ none skipped diagnostic =>
      diagnostic.found = finish ∧ skipped = [] ∧ following = []

end Segment

inductive Partition (finish : Token) : List Segment → List Token → Prop where
  | nil : Partition finish [] []
  | cons {segment : Segment} {segments : List Segment} {following : List Token}
      (nonempty : segment.tokens ≠ [])
      (justified : segment.Justified finish following)
      (others : Partition finish segments following) :
      Partition finish (segment :: segments) (segment.tokens ++ following)

theorem statement_accept_segment {budget : Nat} {tokens rest : List Token}
    {content : Statement} (finish : Token)
    (accepted : statement budget tokens = .accept content rest) :
    ∃ segment : Segment, segment.item = .kept content ∧
      tokens = segment.tokens ++ rest ∧ segment.tokens ≠ [] ∧
        segment.Justified finish rest := by
  obtain ⟨front, same, derivation⟩ := (statement_sound budget accepted).derives
  have nonempty := ne_nil_of_begins (derivation.begins_first _ rfl)
  exact ⟨.kept front content, rfl, same, nonempty, derivation⟩

theorem statement_reject_segment {budget : Nat} {tokens rest : List Token}
    {problem : Problem} (finish : Token) (remains : tokens ≠ [])
    (enough : tokens.length ≤ budget)
    (rejected : statement budget tokens = .reject problem rest) :
    ∃ (segment : Segment) (following : List Token),
      segment.item = .dropped ⟨problem, rest.head?.getD finish⟩ ∧
        synchronize budget rest = .accept () following ∧
          tokens = segment.tokens ++ following ∧ segment.tokens ≠ [] ∧
            segment.Justified finish following := by
  obtain ⟨unread, rfl⟩ := Production.suffix_of_reject rejected
  have positive := List.length_pos_iff.mpr remains
  rw [List.length_append] at enough positive
  cases rest with
  | nil =>
      obtain ⟨rounds, rfl⟩ := Nat.exists_eq_add_one_of_ne_zero
        (Nat.ne_of_gt (Nat.lt_of_lt_of_le positive enough))
      refine ⟨.dropped unread none [] ⟨problem, finish⟩, [], rfl, rfl, ?_, ?_, ?_⟩
      · simp [Segment.tokens]
      · simpa [Segment.tokens] using remains
      · exact ⟨rfl, rfl, rfl⟩
  | cons token others =>
      rw [List.length_cons] at enough
      obtain ⟨skipped, following, read, rfl, skips⟩ :=
        @skipStatement_skips budget others (by omega)
      refine ⟨.dropped unread (some token) skipped ⟨problem, token⟩, following, rfl,
        read, ?_, ?_, ?_⟩
      · simp [Segment.tokens]
      · simp [Segment.tokens]
      · exact ⟨rfl, skips⟩

theorem items_step (finish : Token) {budget : Nat} {tokens : List Token}
    (remains : tokens ≠ []) (enough : tokens.length ≤ budget + 1) :
    ∃ (segment : Segment) (following : List Token),
      tokens = segment.tokens ++ following ∧ segment.tokens ≠ [] ∧
        segment.Justified finish following ∧
          items finish (budget + 1) tokens =
            segment.item :: items finish budget following := by
  cases tokens with
  | nil => exact absurd rfl remains
  | cons token others =>
      cases reply : statement (budget + 1) (token :: others) with
      | accept content rest =>
          obtain ⟨segment, item, same, nonempty, justified⟩ :=
            statement_accept_segment finish reply
          refine ⟨segment, rest, same, nonempty, justified, ?_⟩
          simp only [items, reply, item]
      | reject problem rest =>
          obtain ⟨segment, following, item, read, same, nonempty, justified⟩ :=
            statement_reject_segment finish remains enough reply
          refine ⟨segment, following, same, nonempty, justified, ?_⟩
          simp only [items, reply, item, read, Reply.rest]

/-- The items of a token list come from a partition of it. -/
theorem items_partition (finish : Token) {budget : Nat} {tokens : List Token}
    (enough : tokens.length ≤ budget) :
    ∃ segments, Partition finish segments tokens ∧
      segments.map Segment.item = items finish budget tokens := by
  induction budget generalizing tokens with
  | zero =>
      obtain rfl := List.eq_nil_of_length_eq_zero (Nat.le_zero.mp enough)
      exact ⟨[], .nil, rfl⟩
  | succ budget inductionHypothesis =>
      by_cases empty : tokens = []
      · subst empty
        exact ⟨[], .nil, rfl⟩
      · obtain ⟨segment, following, rfl, nonempty, justified, unfolded⟩ :=
          items_step finish empty enough
        -- The segment is not empty, so the smaller budget covers the others.
        have positive := List.length_pos_iff.mpr nonempty
        have shorter : following.length ≤ budget := by
          rw [List.length_append] at enough
          omega
        obtain ⟨segments, partition, same⟩ := inductionHypothesis shorter
        refine ⟨segment :: segments, .cons nonempty justified partition, ?_⟩
        rw [List.map_cons, same, unfolded]

end Grammar

open Grammar

theorem Token.Stream.finish_kind (all : List Token) :
    (Token.Stream.ofTokens all).finish.kind = .endOfFile := by
  show (((all.filter fun token => !token.kind.isTrivia).find?
    Token.Stream.isFinish).getD _).kind = .endOfFile
  cases found : (all.filter fun token => !token.kind.isTrivia).find?
      Token.Stream.isFinish with
  | none => rfl
  | some token =>
      have finishes : Token.Stream.isFinish token = true :=
        List.find?_some found
      exact eq_of_beq finishes

theorem parseTokens_segments (all : List Token) :
    ∃ segments,
      Partition (Token.Stream.ofTokens all).finish segments
          (Token.Stream.ofTokens all).tokens ∧
        segments.filterMap Segment.statement? =
          (parseTokens all).program.body ∧
        segments.filterMap Segment.diagnostic? =
          (parseTokens all).diagnostics := by
  obtain ⟨segments, partition, same⟩ :=
    items_partition (Token.Stream.ofTokens all).finish
      (Nat.le_succ (Token.Stream.ofTokens all).tokens.length)
  have parsed : parseTokens all = .ofItems (segments.map Segment.item) :=
    congrArg Parsed.ofItems same.symm
  refine ⟨segments, partition, ?_, ?_⟩
  · rw [parsed]
    exact List.filterMap_map.symm
  · rw [parsed]
    exact List.filterMap_map.symm

/--
Every token list is cut into consecutive segments, none of them empty. The kept
ones derive the statements of the program, in order; the dropped ones account
for the diagnostics, in order, each showing its offending token or, at the end,
the end-of-file token.
-/
theorem parseTokens_partition (all : List Token) :
    ∃ segments,
      Partition (Token.Stream.ofTokens all).finish segments
          (Token.Stream.ofTokens all).tokens ∧
        (Token.Stream.ofTokens all).finish.kind = .endOfFile ∧
        segments.filterMap Segment.statement? =
          (parseTokens all).program.body ∧
        segments.filterMap Segment.diagnostic? =
          (parseTokens all).diagnostics := by
  obtain ⟨segments, partition, statements, diagnostics⟩ :=
    parseTokens_segments all
  have finishes := Token.Stream.finish_kind all
  exact ⟨segments, partition, finishes, statements, diagnostics⟩

end ScriptAudit
