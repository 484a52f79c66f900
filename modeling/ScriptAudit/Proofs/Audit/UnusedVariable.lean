/-
The rule about unused variables and the token stream. In a source that is read
without diagnostics, the findings of low severity are those at the declarators
whose name is spelled by one identifier token only, the headers of loops left out.
-/

import ScriptAudit.Proofs.Audit.Findings
import ScriptAudit.Proofs.Grammar.Layout
import ScriptAudit.Proofs.Grammar.Yield

namespace ScriptAudit

open Grammar

def Node.declarator? : Node → Option Declarator
  | .declarator content => some content
  | _ => none

def Program.declarators (program : Program) : List Declarator :=
  (Node.program program).preorder.filterMap Node.declarator?

namespace Node

theorem declarator?_eq_some {node : Node} {content : Declarator} :
    node.declarator? = some content ↔ node = .declarator content := by
  cases node with
  | declarator other => simp [declarator?]
  | _ => simp [declarator?]

theorem mem_declarators {program : Program} {content : Declarator} :
    content ∈ program.declarators ↔
      .declarator content ∈ (Node.program program).preorder := by
  simp [Program.declarators, List.mem_filterMap, declarator?_eq_some]

def isTerm : Node → Bool
  | .expression _ | .property _ => true
  | _ => false

theorem isTerm_of_mem_children {node child : Node} (term : node.isTerm = true)
    (member : child ∈ node.children) : child.isTerm = true := by
  cases node with
  | expression content =>
      cases content with
      | call callee arguments position =>
          rcases List.mem_cons.mp member with rfl | later
          · rfl
          · obtain ⟨_, _, rfl⟩ := List.mem_map.mp later
            rfl
      | array elements position | object properties position =>
          obtain ⟨_, _, rfl⟩ := List.mem_map.mp member
          rfl
      | identifier content | literal content => cases member
      | _ =>
          simp only [children, expressionChildren, List.mem_cons,
            List.not_mem_nil, or_false] at member
          rcases member with rfl | rfl <;> rfl
  | property content =>
      simp only [children, List.mem_cons, List.not_mem_nil, or_false] at member
      rcases member with rfl | rfl <;> rfl
  | _ => cases term

/-- Nothing is declared within an expression. -/
theorem filterMap_declarator?_of_isTerm {node : Node}
    (term : node.isTerm = true) :
    node.preorder.filterMap declarator? = [] := by
  induction node using induction_on_children with
  | step node inductionHypothesis =>
      have top : node.declarator? = none := by
        cases node with
        | declarator content => cases term
        | _ => rfl
      rw [preorder_eq, List.filterMap_cons_none top, List.filterMap_flatMap,
        List.flatMap_eq_nil_iff]
      intro child member
      exact inductionHypothesis child member (isTerm_of_mem_children term member)

theorem isTerm_of_mem_declarator {content : Declarator} {child : Node}
    (member : child ∈ (Node.declarator content).children) :
    child.isTerm = true := by
  rcases List.mem_cons.mp member with rfl | later
  · rfl
  · obtain ⟨_, _, rfl⟩ := List.mem_map.mp later
    rfl

theorem Precedes.declarators {first second : Node}
    (before : first.Precedes second) :
    ∀ early ∈ first.preorder.filterMap declarator?,
      ∀ late ∈ second.preorder.filterMap declarator?,
        early.position < late.position := by
  intro early earlyMember late lateMember
  obtain ⟨_, inside, same⟩ := List.mem_filterMap.mp earlyMember
  obtain ⟨_, within, sameOther⟩ := List.mem_filterMap.mp lateMember
  rw [declarator?_eq_some] at same sameOther
  subst same sameOther
  exact before _ inside _ within

/-- Declarators are not nested, so sibling subtrees hold them one after the
other. -/
theorem declarators_pairwise_lt {root : Node}
    (arranged : ∀ node ∈ root.preorder, node.Arranged) :
    (root.preorder.filterMap declarator?).Pairwise
      fun first second => first.position < second.position := by
  induction root using induction_on_children with
  | step root inductionHypothesis =>
      obtain ⟨top, below⟩ := forall_mem_preorder.mp arranged
      rw [preorder_eq]
      cases found : root.declarator? with
      | some content =>
          obtain rfl := declarator?_eq_some.mp found
          have inner : ((Node.declarator content).children.flatMap
              preorder).filterMap declarator? = [] := by
            rw [List.filterMap_flatMap, List.flatMap_eq_nil_iff]
            intro child member
            exact filterMap_declarator?_of_isTerm (isTerm_of_mem_declarator member)
          rw [List.filterMap_cons_some found, inner]
          exact List.pairwise_singleton _ _
      | none =>
          rw [List.filterMap_cons_none found, List.filterMap_flatMap,
            List.pairwise_flatMap]
          constructor
          · intro child member
            exact inductionHypothesis child member (below child member)
          · exact top.siblings.imp Precedes.declarators

end Node

theorem declarators_parse_pairwise_lt (source : Bytes) :
    (parse source).program.declarators.Pairwise
      fun first second => first.position < second.position := by
  obtain ⟨_, arranged, ordered⟩ := stands_parse source
  have top : (Node.program (parse source).program).declarator? = none := rfl
  rw [Program.declarators, Node.preorder_eq, List.filterMap_cons_none top,
    List.filterMap_flatMap, List.pairwise_flatMap]
  constructor
  · intro root member
    exact Node.declarators_pairwise_lt (arranged root member)
  · exact ordered.imp Node.Precedes.declarators

def spelledNames : Marking Bytes where
  ofToken token :=
    if token.kind = .identifier then some token.lexeme else none
  ofNode := Node.identifierName?
  name token kind := by
    rw [if_pos kind]
    rfl
  literal token content writes := by
    have kind := kind_of_literal? writes
    apply if_neg
    intro named
    rw [named] at kind
    revert kind
    decide
  operator rank known token left right position admitted := by
    have plain : ∀ rank ∈ ranks, rank.kind ≠ .identifier := by decide
    apply if_neg
    rw [kind_of_isSpelled admitted]
    exact plain rank known
  declaration token contents spelled := by
    apply if_neg
    rw [kind_of_isSpelled spelled]
    decide
  structural token listed := by
    apply if_neg
    intro named
    rw [named] at listed
    revert listed
    decide
  control token spelled := by
    apply if_neg
    rw [kind_of_isSpelled spelled]
    decide
  others node other := by
    cases node with
    | expression content =>
        cases content with
        | identifier => cases other
        | _ => rfl
    | _ => rfl

/-- How many identifier tokens outside the headers of loops spell a name. -/
def spellings (source name : Bytes) : Nat :=
  (outsideHeaders (significant source)).countP
    (·.isSpelled .identifier [name])

section Clean

variable {source : Bytes} (clean : (parse source).diagnostics = [])

include clean

theorem names_parse :
    (Node.program (parse source).program).names =
      (outsideHeaders (significant source)).filterMap spelledNames.ofToken := by
  have unmarked (node : Node) (kind : node.kind = .binaryExpression) :
      node.identifierName? = none := by
    unfold Node.kind at kind
    split at kind <;> cases kind
    rfl
  rw [marks_parse spelledNames clean]
  exact (Node.filterMap_yield unmarked _).symm

theorem occurrences_parse (name : Bytes) :
    (parse source).program.occurrences name = spellings source name := by
  rw [Program.occurrences, NameTally.occurrences_ofNames, names_parse clean,
    List.count_filterMap]
  congr 1
  funext token
  by_cases kind : token.kind = .identifier
  · simp [spelledNames, Token.isSpelled, kind, Bool.beq_eq_decide_eq]
  · simp [spelledNames, Token.isSpelled, kind]

end Clean

/-! ### Findings of low severity -/

namespace Audit

def unused (content : Declarator) : Finding :=
  { category := .performance
    severity := .low
    message := "Unused variable: " ++ content.identifier.name
    position := content.position }

theorem filter_findings_low (occurrences : Bytes → Nat) (insideLoop : Bool)
    (node : Node) :
    (findings occurrences insideLoop node).filter (·.severity == .low) =
      (node.declarator?.bind fun content =>
        if occurrences content.identifier.name ≤ 1 then some (unused content)
        else none).toList := by
  cases found : node.declarator? with
  | some content =>
      obtain rfl := Node.declarator?_eq_some.mp found
      simp only [findings, hazards, unusedVariable?, Option.bind_some]
      split
      · rfl
      · rfl
  | none =>
      rw [Option.bind_none, Option.toList_none, List.filter_eq_nil_iff]
      intro finding member low
      obtain ⟨hazard, carried, rfl⟩ := List.mem_map.mp member
      have kind : hazard.carrier = node.kind := carrier_of_mem_hazards carried
      have declares : hazard.carrier = .variableDeclarator := by
        cases hazard with
        | unusedVariable name => rfl
        | _ => cases low
      rw [declares] at kind
      unfold Node.kind at kind
      split at kind <;> cases kind
      cases found

end Audit

theorem occurrences_pos_of_mem_declarators {program : Program}
    {content : Declarator} (declared : content ∈ program.declarators) :
    0 < program.occurrences content.identifier.name := by
  have present : Node.ofIdentifier content.identifier ∈
      (Node.program program).preorder := by
    apply Node.mem_preorder_trans (Node.mem_declarators.mp declared)
    exact Node.mem_preorder_iff.mpr
      (.inr ⟨_, List.mem_cons_self, Node.mem_preorder_self _⟩)
  rw [Program.occurrences, NameTally.occurrences_ofNames, List.count_pos_iff]
  exact List.mem_filterMap.mpr ⟨_, present, rfl⟩

/--
In a source that is read without diagnostics, the findings of low severity say, in
the order of the source, which declared names are spelled by exactly one identifier
token outside the headers of loops.
-/
theorem audit_unusedVariables (source : Bytes)
    (clean : (parse source).diagnostics = []) :
    ((parse source).program.declarators.Pairwise
        fun first second => first.position < second.position) ∧
      (audit (parse source).program).filter (·.severity == .low) =
        ((parse source).program.declarators.filter fun content =>
          spellings source content.identifier.name = 1).map Audit.unused := by
  refine ⟨declarators_parse_pairwise_lt source, ?_⟩
  have once : ∀ content ∈ (parse source).program.declarators,
      ((parse source).program.occurrences content.identifier.name ≤ 1 ↔
        spellings source content.identifier.name = 1) := by
    intro content declared
    have positive := occurrences_pos_of_mem_declarators declared
    rw [occurrences_parse clean] at positive ⊢
    omega
  calc (audit (parse source).program).filter (·.severity == .low)
      _ = (parse source).program.declarators.filterMap fun content =>
            if (parse source).program.occurrences content.identifier.name ≤ 1 then
              some (Audit.unused content)
            else none := by
          rw [filter_audit_eq_filterMap (Audit.filter_findings_low _),
            Program.declarators, List.filterMap_filterMap]
      _ = (parse source).program.declarators.filterMap fun content =>
            if spellings source content.identifier.name = 1 then
              some (Audit.unused content)
            else none := by
          apply List.filterMap_congr
          intro content declared
          simp only [once content declared]
      _ = ((parse source).program.declarators.filter fun content =>
            spellings source content.identifier.name = 1).map Audit.unused := by
          rw [← filterMap_noted]
          simp only [decide_eq_true_eq]

/-- The key of an object is an occurrence; a name in the header of a loop is none. -/
theorem audit_unusedVariables_loop :
    (audit (parse "for (let i;;) { var i, k = {m: 1}; let m = k; }").program).filter
        (·.severity == .low) =
      [{ category := .performance
         severity := .low
         message := "Unused variable: i"
         position := ⟨1, 21⟩ }] := by
  have clean :
      (parse "for (let i;;) { var i, k = {m: 1}; let m = k; }").diagnostics =
        [] := by
    decide +kernel
  obtain ⟨_, findings⟩ := audit_unusedVariables _ clean
  exact findings.trans (by decide +kernel)

end ScriptAudit
