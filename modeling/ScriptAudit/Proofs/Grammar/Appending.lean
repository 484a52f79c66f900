/-
Tokens appended to others. A reading looks at most one token beyond what it takes
off, so it is the same whatever is appended to a rest that is not empty. A
statement that takes all tokens, the last being a semicolon, is the same in front
of anything but an alternate. Hence the items of two token lists, one after the
other, are the items of the first and the items of the second.
-/

import Mathlib.Data.List.Basic
import Mathlib.Data.List.TakeWhile
import ScriptAudit.Proofs.Grammar.Budget
import ScriptAudit.Proofs.Grammar.Lookahead
import ScriptAudit.Proofs.Grammar.Relocation
import ScriptAudit.Proofs.Token.Resumption

namespace ScriptAudit

namespace Grammar

theorem begins_append_left {test : Token → Bool} {tokens : List Token}
    (remains : tokens ≠ []) (more : List Token) :
    begins test (tokens ++ more) = begins test tokens := by
  cases tokens with
  | nil => exact absurd rfl remains
  | cons token rest => rfl

theorem Reads.remains {phrase : Phrase} {tokens rest : List Token}
    (reading : Reads phrase tokens rest) (remains : rest ≠ []) :
    tokens ≠ [] := by
  rintro rfl
  have bound := reading.length_le
  exact remains (List.eq_nil_of_length_eq_zero (Nat.le_zero.mp bound))

/-- What is appended to a rest that is not empty does not change the reading. -/
theorem Reads.append {phrase : Phrase} {tokens rest : List Token}
    (reading : Reads phrase tokens rest) (remains : rest ≠ [])
    (more : List Token) : Reads phrase (tokens ++ more) (rest ++ more) := by
  obtain ⟨front, rfl, moved⟩ := reading.refit
  rw [List.append_assoc]
  exact moved (rest ++ more) (.inl (List.head?_append_of_ne_nil rest remains).symm)

def lacksSemicolon (tokens : List Token) : Bool :=
  tokens.all fun token => token.kind != .semicolon

@[simp] theorem lacksSemicolon_nil : lacksSemicolon [] = true :=
  rfl

@[simp] theorem lacksSemicolon_cons (token : Token) (rest : List Token) :
    lacksSemicolon (token :: rest) =
      (token.kind != .semicolon && lacksSemicolon rest) :=
  rfl

@[simp] theorem lacksSemicolon_append (front back : List Token) :
    lacksSemicolon (front ++ back) =
      (lacksSemicolon front && lacksSemicolon back) :=
  List.all_append

/-- A semicolon ends a statement and stands nowhere else but in the header of a
loop. -/
theorem Derives.lacksSemicolon {phrase : Phrase} {tokens : List Token}
    (derivation : Derives phrase tokens) :
    phrase.Unterminated → lacksSemicolon tokens = true := by
  have literals : ∀ kind ∈ literalKinds, kind ≠ .semicolon := by decide
  have operators : ∀ rank ∈ ranks, rank.kind ≠ .semicolon := by decide
  induction derivation with
  | literal writes =>
      intro _
      simpa using literals _ (kind_of_literal? writes)
  | join _ admitted _ chain operand =>
      intro proper
      have kind := operators _ proper.1
      rw [← kind_of_isSpelled admitted] at kind
      simp [kind, chain proper, operand proper.2]
  | update _ updates accessed =>
      intro _
      simp [kind_of_isUpdate updates, accessed trivial]
  | initialized kind spelled _ init =>
      intro _
      simp [kind, kind_of_isSpelled spelled, init trivial]
  | rank _ chain =>
      intro proper
      exact chain (List.forall_mem_cons.mp proper)
  | first _ operand => exact fun proper => operand proper.2
  | simple _ ladder => exact fun _ => ladder fun _ member => member
  | assignment _ kind _ ladder assigned =>
      intro _
      simp [kind, ladder fun _ member => member, assigned trivial]
  | declaration | function | returnNothing | returnValue | ifThen | ifElse | loop
  | blockStatement | expressionStatement | block | noStatements
  | moreStatements => exact False.elim
  | _ =>
      intro _
      simp_all [Phrase.Unterminated, Phrase.Proper]

/-! ### A rest that is empty -/

def Sealed (tokens : List Token) : Prop :=
  ∀ token ∈ tokens.getLast?, token.kind = .semicolon

theorem Sealed.of_append {front back : List Token}
    (closed : Sealed (front ++ back)) : Sealed back := by
  intro token last
  exact closed token (List.mem_getLast?_append_of_mem_getLast? last)

theorem Sealed.of_cons {token : Token} {rest : List Token}
    (closed : Sealed (token :: rest)) : Sealed rest := by
  rw [← List.singleton_append] at closed
  exact closed.of_append

theorem Sealed.of_reads {phrase : Phrase} {tokens rest : List Token}
    (closed : Sealed tokens) (reading : Reads phrase tokens rest) :
    Sealed rest := by
  obtain ⟨front, rfl, _⟩ := reading.derives
  exact closed.of_append

/-- A phrase that is not a statement leaves the semicolon at the end. -/
theorem Sealed.remains {phrase : Phrase} {tokens rest : List Token}
    {test : Token → Bool} (closed : Sealed tokens)
    (reading : Reads phrase tokens rest) (unterminated : phrase.Unterminated)
    (first : phrase.first? = some test) : rest ≠ [] := by
  rintro rfl
  obtain ⟨front, rfl, derivation⟩ := reading.derives
  rw [List.append_nil] at closed
  have nonempty := ne_nil_of_begins (derivation.begins_first test first)
  have last := closed _ (List.getLast?_eq_some_getLast nonempty)
  have lacks := List.all_eq_true.mp (derivation.lacksSemicolon unterminated) _
    (List.getLast_mem nonempty)
  rw [last] at lacks
  cases lacks

theorem Terminates.appendExhausted {middle : List Token}
    (ends : Terminates middle []) (remains : middle ≠ [])
    (more : List Token) : Terminates (middle ++ more) more := by
  cases ends with
  | semicolon kind => exact .semicolon kind
  | absent _ => exact absurd rfl remains

theorem Reads.appendBlock {body : List Statement} {position : Position}
    {tokens rest : List Token}
    (reading : Reads (.block body position) tokens rest) (more : List Token) :
    Reads (.block body position) (tokens ++ more) (rest ++ more) := by
  cases reading with
  | block opens list closes =>
      exact .block opens (list.append (List.cons_ne_nil _ _) more) closes

/-- A statement that takes all tokens and ends with a semicolon takes no more
in front of other tokens, unless they begin with an alternate. -/
theorem Reads.appendSealed {content : Statement} {tokens more : List Token}
    (reading : Reads (.statement content) tokens []) (closed : Sealed tokens)
    (noElse : begins isElse more = false) :
    Reads (.statement content) (tokens ++ more) more := by
  generalize same : Phrase.statement content = phrase at reading
  generalize empty : ([] : List Token) = rest at reading
  induction reading generalizing content with
  | declaration spelled list ends =>
      cases same
      subst empty
      have remains := closed.of_cons.remains list trivial rfl
      exact .declaration spelled (list.append remains more)
        (ends.appendExhausted remains more)
  | function spelled kind opens parameters closes block =>
      cases same
      subst empty
      exact .function spelled kind opens
        (parameters.append (List.cons_ne_nil _ _) more) closes
        (block.appendBlock more)
  | @returnNothing keyword middle _ spelled stops ends =>
      cases same
      subst empty
      -- A return at the very end would have no semicolon behind it.
      have remains : middle ≠ [] := by
        rintro rfl
        have semicolon := closed keyword rfl
        rw [kind_of_isSpelled spelled] at semicolon
        cases semicolon
      have stopped := stops.resolve_left remains
      rw [← begins_append_left remains more] at stopped
      exact .returnNothing spelled (.inr stopped)
        (ends.appendExhausted remains more)
  | returnValue spelled argument ends =>
      cases same
      subst empty
      have remains := closed.of_cons.remains argument trivial rfl
      exact .returnValue spelled (argument.append remains more)
        (ends.appendExhausted remains more)
  | ifThen spelled opens condition closes branch stops _ branchAppended =>
      cases same
      subst empty
      have middle := (closed.of_cons.of_cons.of_reads condition).of_cons
      exact .ifThen spelled opens
        (condition.append (List.cons_ne_nil _ _) more) closes
        (branchAppended middle rfl rfl) noElse
  | ifElse spelled opens condition closes branch elseSpelled other _ _
      otherAppended =>
      cases same
      subst empty
      have middle := (closed.of_cons.of_cons.of_reads condition).of_cons
      have others := (middle.of_reads branch).of_cons
      exact .ifElse spelled opens
        (condition.append (List.cons_ne_nil _ _) more) closes
        (branch.append (List.cons_ne_nil _ _) more) elseSpelled
        (otherAppended others rfl rfl)
  | loop spelled opens balanced closes repeated repeatedAppended =>
      cases same
      subst empty
      have middle := closed.of_cons.of_cons.of_append.of_cons
      rw [List.cons_append, List.cons_append, List.append_assoc]
      exact .loop spelled opens balanced closes
        (repeatedAppended middle rfl rfl)
  | blockStatement block =>
      cases same
      subst empty
      exact .blockStatement (block.appendBlock more)
  | expressionStatement notBlock value ends =>
      cases same
      subst empty
      have remains := closed.remains value trivial rfl
      have nonempty := value.remains remains
      rw [← begins_append_left nonempty more] at notBlock
      exact .expressionStatement notBlock (value.append remains more)
        (ends.appendExhausted remains more)
  | _ => cases same

theorem items_append (finish : Token) {contents : List Statement}
    {tokens more : List Token} {budget : Nat}
    (reading : Reads (.statements contents) tokens []) (closed : Sealed tokens)
    (noElse : begins isElse more = false)
    (enough : (tokens ++ more).length < budget) :
    items finish budget (tokens ++ more) =
      contents.map .kept ++ items finish (more.length + 1) more := by
  induction contents generalizing tokens budget with
  | nil =>
      cases reading
      exact items_budget finish enough (Nat.lt_succ_self _)
  | cons content others inductionHypothesis =>
      cases reading with
      | @moreStatements _ _ _ middle _ head tail =>
          have appended : Reads (.statement content) (tokens ++ more)
              (middle ++ more) := by
            by_cases remains : middle = []
            · subst remains
              exact head.appendSealed closed noElse
            · exact head.append remains more
          have nonempty := ne_nil_of_begins (appended.begins_first rfl)
          have taken := appended.length_lt rfl
          cases budget with
          | zero => exact absurd enough (Nat.not_lt_zero _)
          | succ budget =>
              have accepted := (statement_eq_accept_iff enough).mpr appended
              rw [items_cons finish nonempty accepted,
                inductionHypothesis tail (closed.of_reads head) (by omega)]
              rfl

theorem ofItems_kept_append (contents : List Statement) (list : List Item) :
    Parsed.ofItems (contents.map .kept ++ list) =
      { program := ⟨contents ++ (Parsed.ofItems list).program.body⟩
        diagnostics := (Parsed.ofItems list).diagnostics } := by
  have statements : (contents.map Item.kept).filterMap Item.statement? =
      contents := by
    rw [List.filterMap_map]
    exact List.filterMap_some
  have diagnostics : (contents.map Item.kept).filterMap Item.diagnostic? =
      [] := by
    rw [List.filterMap_map, List.filterMap_eq_nil_iff]
    exact fun _ _ => rfl
  unfold Parsed.ofItems
  rw [List.filterMap_append, List.filterMap_append, statements, diagnostics]
  rfl

end Grammar

open Grammar

theorem Token.Stream.ofTokens_append {first second : List Token}
    (unfinished : ∀ token ∈ first, token.kind ≠ .endOfFile)
    (finished : ∃ token ∈ second, token.kind = .endOfFile) :
    ofTokens (first ++ second) =
      { tokens := (ofTokens first).tokens ++ (ofTokens second).tokens
        finish := (ofTokens second).finish } := by
  have goesOn : ∀ token ∈ first.filter (fun token => !token.kind.isTrivia),
      (!isFinish token) = true := by
    intro token member
    simp [isFinish, unfinished token (List.mem_filter.mp member).1]
  have missing : (first.filter fun token => !token.kind.isTrivia).find?
      isFinish = none := by
    rw [List.find?_eq_none]
    intro token member finishes
    have others := goesOn token member
    rw [finishes] at others
    cases others
  obtain ⟨last, found⟩ : ∃ last,
      (second.filter fun token => !token.kind.isTrivia).find? isFinish =
        some last := by
    obtain ⟨last, member, kind⟩ := finished
    rw [← Option.isSome_iff_exists, List.find?_isSome]
    refine ⟨last, List.mem_filter.mpr ⟨member, ?_⟩, ?_⟩
    · rw [kind]
      rfl
    · rw [isFinish, kind]
      rfl
  simp only [ofTokens, List.filter_append, List.find?_append, missing, found,
    List.takeWhile_append_of_pos goesOn, List.takeWhile_eq_self_iff.mpr goesOn,
    Option.none_or, Option.getD_some]

theorem ofStream_append {first second : Token.Stream}
    {contents : List Statement}
    (reading : Reads (.statements contents) first.tokens [])
    (closed : Sealed first.tokens)
    (noElse : begins isElse second.tokens = false) :
    Parsed.ofStream
        { tokens := first.tokens ++ second.tokens, finish := second.finish } =
      { program := ⟨contents ++ (Parsed.ofStream second).program.body⟩
        diagnostics := (Parsed.ofStream second).diagnostics } := by
  unfold Parsed.ofStream
  rw [items_append second.finish reading closed noElse (Nat.lt_succ_self _),
    ofItems_kept_append]

/-! ### Sources -/

/-- A source that is closed: it ends with a newline that is a token, its last
significant token is a semicolon, and it is read without diagnostics. -/
structure Closed (source : Bytes) : Prop where
  endsLine : source.getLast? = some Bytes.newline
  newlineToken : (tokenize source).dropLast.getLast?.map Token.kind = some .newline
  terminated : Sealed (Token.Stream.ofTokens (tokenize source)).tokens
  clean : (parse source).diagnostics = []

theorem finishes_tokenize (source : Bytes) :
    ∃ tokens, tokenize source = tokens ++ [Token.finish (placeAfter source)] ∧
      ∀ token ∈ tokens, token.kind ≠ .endOfFile :=
  (tokensFrom_laid [] source).finishes

namespace Closed

variable {front : Bytes} (closed : Closed front) (back : Bytes)

def lowered (front back : Bytes) : List Token :=
  (tokenize back).map
    (Token.relocate (Position.down (front.count Bytes.newline)))

include closed

theorem stream_append :
    Token.Stream.ofTokens (tokenize (front ++ back)) =
      { tokens := (Token.Stream.ofTokens (tokenize front)).tokens
          ++ (Token.Stream.ofTokens (lowered front back)).tokens
        finish := (Token.Stream.ofTokens (lowered front back)).finish } := by
  obtain ⟨tokens, same, unfinished⟩ := finishes_tokenize front
  obtain ⟨_, sameBack, _⟩ := finishes_tokenize back
  have frontTokens : (Token.Stream.ofTokens (tokenize front)).tokens =
      (Token.Stream.ofTokens tokens).tokens := by
    rw [same, Token.Stream.ofTokens_append unfinished ⟨_, .head _, rfl⟩]
    exact List.append_nil _
  have finished : ∃ token ∈ lowered front back, token.kind = .endOfFile := by
    rw [lowered, sameBack, List.map_append]
    exact ⟨_, List.mem_append_right _ (.head _), rfl⟩
  rw [frontTokens,
    tokenize_append back (.inr ⟨closed.endsLine, closed.newlineToken⟩), same,
    List.dropLast_concat]
  exact Token.Stream.ofTokens_append unfinished finished

/-- What follows a closed source is read as if it stood alone, unless it begins
with an alternate. -/
theorem parse_append (noElse : begins isElse (significant back) = false) :
    parse (front ++ back) =
      { program := ⟨(parse front).program.body ++ ((parse back).relocate
          (Position.down (front.count Bytes.newline))).program.body⟩
        diagnostics := ((parse back).relocate
          (Position.down (front.count Bytes.newline))).diagnostics } := by
  have plain : begins isElse
      (Token.Stream.ofTokens (lowered front back)).tokens = false := by
    rw [significant_eq_append] at noElse
    have first := begins_of_append noElse
    rw [lowered, Token.Stream.tokens_relocate]
    cases tokens : (Token.Stream.ofTokens (tokenize back)).tokens with
    | nil => rfl
    | cons token rest =>
        rw [tokens] at first
        exact first
  have reading : Reads (.statements (parse front).program.body)
      (Token.Stream.ofTokens (tokenize front)).tokens [] :=
    (parseTokens_eq_iff (tokenize front) _).mp ⟨closed.clean, rfl⟩
  have moved : Parsed.ofStream (.ofTokens (lowered front back)) =
      (parse back).relocate (Position.down (front.count Bytes.newline)) :=
    parseTokens_relocate _ (tokenize back)
  rw [parse, parseTokens, closed.stream_append back,
    ofStream_append reading closed.terminated plain, moved]

end Closed

end ScriptAudit
