/-
Names and literals. Each of them is made by one token, which it tells in full:
its kind, its text and its place. No name or literal of a program is lost, doubled
or moved, whatever is dropped on the way; and where nothing is dropped, only the
headers of loops are left out.
-/

import ScriptAudit.Proofs.Grammar.Recovery
import ScriptAudit.Proofs.Grammar.Yield
import ScriptAudit.Proofs.Tree.WellFormed

namespace ScriptAudit

open Grammar

def leafKinds : List Token.Kind :=
  .identifier :: literalKinds

def Token.isLeaf (token : Token) : Bool :=
  leafKinds.contains token.kind

def Node.leaf? : Node → Option Token
  | .expression (.identifier ⟨name, position⟩) =>
      some ⟨.identifier, name, position⟩
  | .expression (.literal ⟨value, raw, position⟩) =>
      some ⟨value.kind, raw, position⟩
  | _ => none

def Program.leaves (program : Program) : List Token :=
  (Node.program program).preorder.filterMap Node.leaf?

theorem leaf?_literal {token : Token} {content : Literal}
    (writes : literal? token = some content) :
    (Node.expression (.literal content)).leaf? = some token := by
  obtain ⟨kind, lexeme, position⟩ := token
  cases kind <;> cases writes <;> rfl

def leafTokens : Marking Token where
  ofToken token := if token.isLeaf then some token else none
  ofNode := Node.leaf?
  name token kind := by
    obtain ⟨_, lexeme, position⟩ := token
    subst kind
    rfl
  literal token content writes := by
    have leaf : token.isLeaf = true :=
      List.contains_iff_mem.mpr (.tail _ (kind_of_literal? writes))
    rw [leaf?_literal writes, if_pos leaf]
  operator rank known token left right position admitted := by
    have plain : ∀ rank ∈ ranks, rank.kind ∉ leafKinds := by decide
    apply if_neg
    rw [Token.isLeaf, List.contains_iff_mem, kind_of_isSpelled admitted]
    exact plain rank known
  declaration token contents spelled := by
    apply if_neg
    rw [Token.isLeaf, kind_of_isSpelled spelled]
    decide
  structural token listed := by
    have plain : ∀ kind ∈ structuralKinds, kind ∉ leafKinds := by decide
    apply if_neg
    rw [Token.isLeaf, List.contains_iff_mem]
    exact plain token.kind listed
  control token spelled := by
    apply if_neg
    rw [Token.isLeaf, kind_of_isSpelled spelled]
    decide
  others node other := by
    unfold Node.leaf?
    split
    · cases other
    · cases other
    · rfl

theorem leaves_eq_inTrees (program : Program) :
    program.leaves = leafTokens.inTrees (program.body.map .statement) := by
  have unmarked (node : Node) (kind : node.kind = .binaryExpression) :
      node.leaf? = none := by
    unfold Node.kind at kind
    split at kind <;> cases kind
    rfl
  have top : (Node.program program).leaf? = none := rfl
  rw [Program.leaves, ← Node.filterMap_yield unmarked, Node.yield_eq,
    List.filterMap_append, List.filterMap_cons_none top]
  rfl

namespace Grammar

theorem Region.outside_sublist (region : Region) (tokens : List Token) :
    (region.outside tokens).Sublist tokens := by
  induction tokens generalizing region with
  | nil => exact .refl []
  | cons token rest inductionHypothesis =>
      rw [Region.outside]
      split
      · exact (inductionHypothesis _).cons token
      · exact (inductionHypothesis _).cons_cons token

/-- What is kept of some tokens has marks of these tokens only, in their order. -/
theorem Partition.marks_sublist {μ : Type} (marking : Marking μ) {finish : Token}
    {segments : List Segment} {tokens : List Token}
    (partition : Partition finish segments tokens) :
    (marking.inTrees
        ((segments.filterMap Segment.statement?).map .statement)).Sublist
      (tokens.filterMap marking.ofToken) := by
  induction partition with
  | nil => exact .refl []
  | @cons segment segments following _ justified _ inductionHypothesis =>
      rw [List.filterMap_append]
      cases segment with
      | kept front content =>
          have derivation : Derives (.statement content) front := justified
          have agrees : marking.inTokens front =
              marking.inTrees [.statement content] :=
            derivation.agrees marking trivial
          have split : marking.inTrees
                (((Segment.kept front content :: segments).filterMap
                  Segment.statement?).map .statement) =
              marking.inTokens front ++ marking.inTrees
                ((segments.filterMap Segment.statement?).map .statement) := by
            rw [agrees]
            exact marking.inTrees_append [.statement content] _
          rw [split]
          exact ((Region.code.outside_sublist front).filterMap _).append
            inductionHypothesis
      | dropped unread offending skipped diagnostic =>
          exact inductionHypothesis.trans (List.sublist_append_right _ _)

end Grammar

/--
The names and literals of what is read off any tokens are a subsequence of the
tokens before the end that are names or literals. Without diagnostics they are all
of these, less the headers of loops.
-/
theorem parseTokens_leaves (all : List Token) :
    (parseTokens all).program.leaves.Sublist
        ((Token.Stream.ofTokens all).tokens.filter Token.isLeaf) ∧
      ((parseTokens all).diagnostics = [] →
        (parseTokens all).program.leaves =
          (outsideHeaders (Token.Stream.ofTokens all).tokens).filter
            Token.isLeaf) := by
  have noted (tokens : List Token) :
      tokens.filterMap leafTokens.ofToken = tokens.filter Token.isLeaf :=
    congrFun List.filterMap_eq_filter tokens
  rw [leaves_eq_inTrees]
  constructor
  · obtain ⟨segments, partition, statements, _⟩ := parseTokens_segments all
    rw [← noted, ← statements]
    exact partition.marks_sublist leafTokens
  · intro clean
    rw [← noted]
    exact ((derives_parseTokens clean).agrees leafTokens trivial).symm

/-- Keys and names of members are kept, the header of the loop is not. -/
theorem parseTokens_leaves_loop :
    (parseTokens
        (tokenize "for (let i = 0;;) o.p = [{k: null}, 's', 7]")).program.leaves =
      [⟨.identifier, "o", ⟨1, 19⟩⟩, ⟨.identifier, "p", ⟨1, 21⟩⟩,
        ⟨.identifier, "k", ⟨1, 27⟩⟩, ⟨.null, "null", ⟨1, 30⟩⟩,
        ⟨.string, "s", ⟨1, 37⟩⟩, ⟨.number, "7", ⟨1, 42⟩⟩] := by
  have clean :
      (parseTokens
        (tokenize "for (let i = 0;;) o.p = [{k: null}, 's', 7]")).diagnostics =
        [] := by
    decide +kernel
  have leaves := (parseTokens_leaves _).2 clean
  exact leaves.trans (by decide +kernel)

end ScriptAudit
