/-
Whatever is kept of a token list is well formed, however broken the list is, and
so it survives being printed: reading the printed tokens gives the same program.

That a tree is well formed is a matter of each rule of a reading, except for the
conditionals. There it follows from the lookahead: a statement that could take an
`else` has not been left in front of one.
-/

import Mathlib.Data.List.TakeWhile
import ScriptAudit.Proofs.Grammar.LoopHeader
import ScriptAudit.Proofs.Grammar.RoundTrip

namespace ScriptAudit

def AllWellFormed (roots : List Node) : Prop :=
  ∀ root ∈ roots, root.WellFormed

namespace AllWellFormed

theorem nil : AllWellFormed [] :=
  List.forall_mem_nil _

theorem cons {root : Node} {others : List Node} (first : AllWellFormed [root])
    (rest : AllWellFormed others) : AllWellFormed (root :: others) :=
  List.forall_mem_cons.mpr ⟨List.forall_mem_singleton.mp first, rest⟩

theorem append {front back : List Node} (before : AllWellFormed front)
    (behind : AllWellFormed back) : AllWellFormed (front ++ back) :=
  List.forall_mem_append.mpr ⟨before, behind⟩

theorem node {root : Node} (regular : root.isRegular = true)
    (below : AllWellFormed root.children) : AllWellFormed [root] :=
  List.forall_mem_singleton.mpr (root.wellFormed_iff.mpr ⟨regular, below⟩)

theorem name (identifier : Identifier) :
    AllWellFormed [.ofIdentifier identifier] :=
  node rfl nil

end AllWellFormed

namespace Grammar

theorem isWritten_of_literal? {token : Token} {content : Literal}
    (writes : literal? token = some content) : content.isWritten = true := by
  obtain ⟨value, written, rfl⟩ := Option.map_eq_some_iff.mp writes
  have kind : value.kind = token.kind := by
    unfold literalValue? at written
    split at written
    all_goals cases written
    all_goals rename_i known
    all_goals exact known.symm
  rw [Literal.isWritten, kind]
  exact beq_iff_eq.mpr written

/-- A statement that could take an `else` has not stopped in front of one. -/
theorem Reads.noElse {content : Statement} {tokens rest : List Token}
    (reading : Reads (.statement content) tokens rest)
    (opened : content.endsOpen = true) : begins isElse rest = false := by
  fun_induction Statement.endsOpen content generalizing tokens with
  | case1 =>
      cases reading with
      | ifThen _ _ _ _ _ stops => exact stops
  | case2 _ _ alternate _ inductionHypothesis =>
      cases reading with
      | ifElse _ _ _ _ _ _ other => exact inductionHypothesis other opened
  | case3 _ body _ inductionHypothesis =>
      cases reading with
      | loop _ _ _ _ repeated => exact inductionHypothesis repeated opened
  | case4 => cases opened

theorem isRegular_ifElse {test : Expr} {consequent alternate : Statement}
    {position : Position} {otherwise : Token} {tokens others : List Token}
    (branch : Reads (.statement consequent) tokens (otherwise :: others))
    (spelled : isElse otherwise = true) :
    (Node.statement (.ifElse test consequent alternate position)).isRegular =
      true := by
  rw [Node.isRegular, Bool.not_eq_true']
  cases opened : consequent.endsOpen with
  | false => rfl
  | true =>
      have stops := branch.noElse opened
      rw [begins_cons, spelled] at stops
      cases stops

/-- The trees that a phrase stands for are well formed if it can be read. -/
theorem Reads.allWellFormed {phrase : Phrase} {tokens rest : List Token}
    (reading : Reads phrase tokens rest) :
    phrase.Proper → AllWellFormed phrase.roots := by
  induction reading with
  | identifier _ | oneParameter _ _ => exact fun _ => .name _
  | literal writes => exact fun _ => .node (isWritten_of_literal? writes) .nil
  | array _ _ _ elements => exact fun _ => .node rfl (elements trivial)
  | object _ _ _ properties => exact fun _ => .node rfl (properties trivial)
  | member _ _ _ object =>
      exact fun _ => .node rfl (.cons (object trivial) (.name _))
  | index _ _ _ _ object selector =>
      exact fun _ => .node rfl (.cons (object trivial) (selector trivial))
  | call _ _ _ _ callee arguments =>
      exact fun _ => .node rfl (.cons (callee trivial) (arguments trivial))
  | update _ updates accessed =>
      intro _
      have listed := (isSpelled_iff.mp updates).2
      exact .node (List.contains_iff_mem.mpr listed) (accessed trivial)
  | operator _ _ operand => exact fun _ => .node rfl (operand trivial)
  | @join rank tighter _ _ _ _ _ operator _ admitted _ chain operand =>
      intro proper
      have listed := (isSpelled_iff.mp admitted).2
      refine .node ?_ (.cons (chain proper) (operand proper.2))
      exact List.any_eq_true.mpr
        ⟨rank, proper.1, List.contains_iff_mem.mpr listed⟩
  | assignment _ _ _ ladder assigned =>
      intro _
      exact .node rfl (.cons (ladder fun _ member => member) (assigned trivial))
  | moreExpressions _ _ _ head tail | moreProperties _ _ _ head tail
  | moreDeclarators _ _ _ head tail | moreStatements _ _ head tail =>
      exact fun _ => .cons (head trivial) (tail trivial)
  | namedProperty _ _ _ content =>
      exact fun _ => .node rfl (.cons (.name _) (content trivial))
  | quotedProperty kind writes _ _ content =>
      intro _
      refine .node ?_ (.cons (.node (isWritten_of_literal? writes) .nil)
        (content trivial))
      obtain ⟨value, written, rfl⟩ := Option.map_eq_some_iff.mp writes
      simp only [literalValue?, kind] at written
      cases written
      rfl
  | moreParameters _ _ _ tail => exact fun _ => .cons (.name _) (tail trivial)
  | declared _ _ => exact fun _ => .node rfl (.name _)
  | initialized _ _ _ init =>
      exact fun _ => .node rfl (.cons (.name _) (init trivial))
  | declaration spelled list _ contents =>
      intro _
      refine .node ?_ (contents trivial)
      have listed := (isSpelled_iff.mp spelled).2
      rw [Node.isRegular, Bool.and_eq_true]
      refine ⟨List.contains_iff_mem.mpr listed, ?_⟩
      cases list <;> rfl
  | function _ _ _ _ _ _ parameters block =>
      intro _
      refine .node rfl (.cons (.name _) (.append ?_ (block trivial)))
      rw [List.map_map]
      exact parameters trivial
  | returnNothing _ _ _ => exact fun _ => .node rfl .nil
  | returnValue _ _ _ argument => exact fun _ => .node rfl (argument trivial)
  | ifThen _ _ _ _ _ _ condition branch =>
      exact fun _ => .node rfl (.cons (condition trivial) (branch trivial))
  | ifElse _ _ _ _ consequent elseSpelled _ condition branch other =>
      intro _
      exact .node (isRegular_ifElse consequent elseSpelled)
        (.cons (condition trivial) (.cons (branch trivial) (other trivial)))
  | loop _ _ _ _ _ repeated => exact fun _ => .node rfl (repeated trivial)
  | expressionStatement _ _ _ content =>
      exact fun _ => .node rfl (content trivial)
  | block _ _ _ list => exact fun _ => .node rfl (list trivial)
  | noExpressions | noProperties | noParameters | noStatements =>
      exact fun _ => .nil
  | parenthesized _ _ _ same | bare _ same | settled _ _ _ same
  | operand _ same | oneExpression _ _ same | oneProperty _ _ same
  | oneDeclarator _ _ same | blockStatement _ same =>
      exact fun _ => same trivial
  | first _ same => exact fun proper => same proper.2
  | innermost _ same => exact fun _ => same trivial
  | rank _ _ same =>
      intro proper
      exact same (List.forall_mem_cons.mp proper)
  | simple _ _ same => exact fun _ => same fun _ member => member

theorem reads_of_mem_items {finish : Token} {budget : Nat}
    {tokens : List Token} {content : Statement}
    (kept : content ∈ (items finish budget tokens).filterMap Item.statement?) :
    ∃ front rest, Reads (.statement content) front rest := by
  induction budget generalizing tokens with
  | zero => cases kept
  | succ budget inductionHypothesis =>
      cases tokens with
      | nil => cases kept
      | cons token others =>
          cases reply : statement (budget + 1) (token :: others) with
          | accept first rest =>
              simp only [items, reply] at kept
              rcases List.mem_cons.mp kept with rfl | later
              · exact ⟨_, rest, statement_sound (budget + 1) reply⟩
              · exact inductionHypothesis later
          | reject problem rest =>
              simp only [items, reply] at kept
              exact inductionHypothesis kept

/-! ### Printed tokens carry meaning -/

def silentKinds : List Token.Kind :=
  [.comment, .newline, .endOfFile]

def Meaningful (tokens : List Token) : Prop :=
  ∀ token ∈ tokens, token.kind ∉ silentKinds

theorem Meaningful.stream {tokens : List Token} (meaningful : Meaningful tokens) :
    (Token.Stream.ofTokens tokens).tokens = tokens := by
  have significant : tokens.filter (fun token => !token.kind.isTrivia) =
      tokens := by
    refine List.filter_eq_self.mpr fun token member => ?_
    have other := meaningful token member
    simp_all [silentKinds, Token.Kind.isTrivia]
  unfold Token.Stream.ofTokens
  rw [significant]
  refine List.takeWhile_eq_self_iff.mpr fun token member => ?_
  have other := meaningful token member
  simp_all [silentKinds, Token.Stream.isFinish]

namespace Meaningful

@[simp] theorem nil : Meaningful [] :=
  List.forall_mem_nil _

@[simp] theorem cons_iff {token : Token} {rest : List Token} :
    Meaningful (token :: rest) ↔
      token.kind ∉ silentKinds ∧ Meaningful rest :=
  List.forall_mem_cons

@[simp] theorem append_iff {front back : List Token} :
    Meaningful (front ++ back) ↔ Meaningful front ∧ Meaningful back :=
  List.forall_mem_append

@[simp] theorem between_iff {opening closing : Token} {inner : List Token} :
    Meaningful (between opening closing inner) ↔
      opening.kind ∉ silentKinds ∧ Meaningful inner ∧
        closing.kind ∉ silentKinds := by
  simp [between]

theorem commas {parts : List (List Token)}
    (each : ∀ part ∈ parts, Meaningful part) :
    Meaningful (Grammar.commas parts) := by
  fun_induction Grammar.commas parts with
  | case1 => exact nil
  | case2 only => exact each only (.head _)
  | case3 first next others inductionHypothesis =>
      obtain ⟨head, tail⟩ := List.forall_mem_cons.mp each
      simp [head, inductionHypothesis tail, silentKinds]

theorem placed {style : Style} {place : Nat} {leading : Bool} {value : Expr}
    {bare : Bool → List Token} (each : ∀ leads, Meaningful (bare leads)) :
    Meaningful (Grammar.placed style place leading value bare) := by
  unfold Grammar.placed
  split
  · simp [parentheses, each false, silentKinds]
  · exact each leading

end Meaningful

theorem operatorKind_not_silent (operator : Bytes) :
    operatorKind operator ∉ silentKinds := by
  have kinds : ∀ rank ∈ ranks, rank.kind ∉ silentKinds := by decide
  unfold operatorKind
  cases found : ranks[operatorRank operator]? with
  | none => decide
  | some rank => exact kinds rank (List.mem_of_getElem? found)

theorem literalKind_not_silent (value : LiteralValue) :
    value.kind ∉ silentKinds := by
  cases value <;> simp [LiteralValue.kind, silentKinds]

def PrintedMeaningful (style : Style) : Node → Prop
  | .expression value => ∀ leading, Meaningful (bareTokens style leading value)
  | .property entry => Meaningful (entryTokens style entry)
  | .declarator content => Meaningful (declaratorTokens style content)
  | .statement content => Meaningful (statementTokens style content)
  | .program program => Meaningful (programTokens style program)

section Printing

variable {style : Style}

theorem meaningful_tokensAt {value : Expr} (place : Nat) (leading : Bool)
    (inner : PrintedMeaningful style (.expression value)) :
    Meaningful (tokensAt style place leading value) :=
  .placed inner

theorem meaningful_list {values : List Expr}
    (inner : ∀ value ∈ values, PrintedMeaningful style (.expression value)) :
    Meaningful (commas (listTokens style values)) := by
  rw [listTokens_eq_map]
  refine .commas (List.forall_mem_map.mpr fun value member => ?_)
  exact meaningful_tokensAt 0 false (inner value member)

theorem meaningful_expression {value : Expr}
    (inner : ∀ child ∈ Node.expressionChildren value,
      PrintedMeaningful style child) :
    PrintedMeaningful style (.expression value) := by
  intro leading
  cases value with
  | identifier identifier => simp [bareTokens, silentKinds]
  | literal literal =>
      simp [bareTokens, literalKind_not_silent literal.value]
  | binary operator left right position =>
      have leftInner := inner (.expression left) (.head _)
      have rightInner := inner (.expression right) (.tail _ (.head _))
      simp [bareTokens, Meaningful.placed leftInner,
        Meaningful.placed rightInner, operatorKind_not_silent operator]
  | unary operator fixity operand position =>
      have below := inner (.expression operand) (.head _)
      cases fixity <;>
        simp [bareTokens, Meaningful.placed below, silentKinds]
  | assignment operator target value position =>
      have left := inner (.expression target) (.head _)
      have right := inner (.expression value) (.tail _ (.head _))
      simp [bareTokens, Meaningful.placed left, Meaningful.placed right,
        silentKinds]
  | call callee arguments position =>
      have called := inner (.expression callee) (.head _)
      have list : Meaningful (commas (listTokens style arguments)) :=
        meaningful_list fun value member =>
          inner (.expression value) (.tail _ (List.mem_map_of_mem member))
      simp [bareTokens, Meaningful.placed called, list, parentheses,
        silentKinds]
  | member object selector computed position =>
      have target := inner (.expression object) (.head _)
      have index := inner (.expression selector) (.tail _ (.head _))
      cases computed with
      | false =>
          simp [bareTokens, Meaningful.placed target, index false, silentKinds]
      | true =>
          simp [bareTokens, Meaningful.placed target, Meaningful.placed index,
            brackets, silentKinds]
  | array elements position =>
      have list : Meaningful (commas (listTokens style elements)) :=
        meaningful_list fun value member =>
          inner (.expression value) (List.mem_map_of_mem member)
      simp [bareTokens, list, brackets, silentKinds]
  | object properties position =>
      have list : Meaningful (commas (entriesTokens style properties)) := by
        rw [entriesTokens_eq_map]
        refine .commas (List.forall_mem_map.mpr fun entry member => ?_)
        exact inner (.property entry) (List.mem_map_of_mem member)
      simp [bareTokens, list, braces, silentKinds]

theorem meaningful_statements {contents : List Statement}
    (inner : ∀ content ∈ contents,
      PrintedMeaningful style (.statement content)) :
    Meaningful (statementsTokens style contents) := by
  induction contents with
  | nil => exact .nil
  | cons content others inductionHypothesis =>
      obtain ⟨head, tail⟩ := List.forall_mem_cons.mp inner
      exact Meaningful.append_iff.mpr ⟨head, inductionHypothesis tail⟩

theorem meaningful_statement {content : Statement}
    (inner : ∀ child ∈ Node.statementChildren content,
      PrintedMeaningful style child) :
    PrintedMeaningful style (.statement content) := by
  unfold PrintedMeaningful
  cases content with
  | declaration keyword declarators position =>
      have list : Meaningful
          (commas (declarators.map (declaratorTokens style))) := by
        refine .commas (List.forall_mem_map.mpr fun content member => ?_)
        exact inner (.declarator content) (List.mem_map_of_mem member)
      simp [statementTokens, list, silentKinds]
  | function identifier parameters body bodyPosition position =>
      have names : Meaningful (commas (parameters.map
          fun parameter => [mark .identifier parameter.name])) :=
        .commas (List.forall_mem_map.mpr fun parameter _ => by simp [silentKinds])
      have block := inner (.statement (.block body bodyPosition))
        (by simp [Node.statementChildren])
      simp only [PrintedMeaningful, statementTokens] at block
      simp [statementTokens, names, block, parentheses, silentKinds]
  | block body position =>
      have list : Meaningful (statementsTokens style body) :=
        meaningful_statements fun content member =>
          inner (.statement content) (List.mem_map_of_mem member)
      simp [statementTokens, list, braces, silentKinds]
  | expression value position =>
      have below := inner (.expression value) (.head _)
      simp [statementTokens, meaningful_tokensAt 0 true below, silentKinds]
  | returning argument position =>
      cases argument with
      | none => simp [statementTokens, silentKinds]
      | some value =>
          have below := inner (.expression value) (.head _)
          simp [statementTokens, meaningful_tokensAt 0 false below, silentKinds]
  | ifThen test consequent position =>
      have condition := inner (.expression test) (.head _)
      have branch := inner (.statement consequent) (.tail _ (.head _))
      simp only [PrintedMeaningful] at branch
      simp [statementTokens, meaningful_tokensAt 0 false condition, branch,
        parentheses, silentKinds]
  | ifElse test consequent alternate position =>
      have condition := inner (.expression test) (.head _)
      have branch := inner (.statement consequent) (.tail _ (.head _))
      have other := inner (.statement alternate)
        (.tail _ (.tail _ (.head _)))
      simp only [PrintedMeaningful] at branch other
      simp [statementTokens, meaningful_tokensAt 0 false condition, branch,
        other, parentheses, silentKinds]
  | loop kind body position =>
      have repeated := inner (.statement body) (.head _)
      simp only [PrintedMeaningful] at repeated
      cases kind <;>
        simp [statementTokens, repeated, loopKeyword, parentheses, silentKinds]

theorem printedMeaningful (style : Style) (node : Node) :
    PrintedMeaningful style node := by
  induction node using Node.induction_on_children with
  | step node inner =>
      cases node with
      | expression value => exact meaningful_expression inner
      | statement content => exact meaningful_statement inner
      | property entry =>
          obtain ⟨key, value, position⟩ := entry
          have named := inner (.expression key) (.head _)
          have content := inner (.expression value) (.tail _ (.head _))
          simp [PrintedMeaningful, entryTokens, named false,
            Meaningful.placed content, silentKinds]
      | declarator content =>
          obtain ⟨identifier, init, position⟩ := content
          cases init with
          | none => simp [PrintedMeaningful, declaratorTokens, silentKinds]
          | some value =>
              have below := inner (.expression value) (.tail _ (.head _))
              simp [PrintedMeaningful, declaratorTokens,
                meaningful_tokensAt 0 false below, silentKinds]
      | program program =>
          exact meaningful_statements fun content member =>
            inner (.statement content) (List.mem_map_of_mem member)

end Printing

end Grammar

open Grammar

theorem wellFormed_parseTokens (all : List Token) :
    (Node.program (parseTokens all).program).WellFormed := by
  refine (Node.wellFormed_iff _).mpr ⟨rfl, ?_⟩
  refine List.forall_mem_map.mpr fun content kept => ?_
  obtain ⟨front, rest, reading⟩ := reads_of_mem_items kept
  exact reading.allWellFormed trivial _ (.head _)

theorem reads_programTokens (style : Style) {program : Program}
    (wellFormed : (Node.program program).WellFormed) :
    Reads (.statements (program.relocate toStart).body)
      (programTokens style program) [] := by
  have reading := printed_of_wellFormed style _ wellFormed [] rfl
  rwa [List.append_nil] at reading

/--
The program that is kept of any token list is well formed. Printed in any style,
with parentheses only where required or with more of them, it is read back
without diagnostics and unchanged up to places.
-/
theorem parseTokens_reprinted (all : List Token) :
    (Node.program (parseTokens all).program).WellFormed ∧
      ∀ style : Style,
        (parseTokens
            (programTokens style (parseTokens all).program)).diagnostics = [] ∧
          (parseTokens
              (programTokens style (parseTokens all).program)).program =
            (parseTokens all).program.relocate toStart := by
  have wellFormed := wellFormed_parseTokens all
  refine ⟨wellFormed, fun style => ?_⟩
  have reading := reads_programTokens style wellFormed
  have meaningful : Meaningful (programTokens style (parseTokens all).program) :=
    printedMeaningful style (.program (parseTokens all).program)
  rw [← meaningful.stream] at reading
  obtain ⟨clean, body⟩ := (parseTokens_eq_iff _ _).mpr reading
  exact ⟨clean, congrArg Program.mk body⟩

end ScriptAudit
