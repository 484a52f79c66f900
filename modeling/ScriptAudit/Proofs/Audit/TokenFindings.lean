/-
Findings that match the token stream one to one. In a source that is read without
diagnostics, the findings about loose equality are as many as the tokens that
spell it, and the findings about `var` stand exactly at the `var` keywords. The
headers of loops are left out on both sides.
-/

import ScriptAudit.Proofs.Audit.Findings
import ScriptAudit.Proofs.Grammar.Yield

namespace ScriptAudit

open Grammar

namespace Node

def comparesBy (operator : Bytes) : Node → Bool
  | .expression (.binary other _ _ _) => other == operator
  | _ => false

def declaresVar : Node → Bool
  | .statement (.declaration keyword _ _) => keyword == Bytes.ofString "var"
  | _ => false

end Node

/-- The words of a finding about loose equality give the operator, and no other
hazard is an error of medium severity. -/
theorem looseEquality_isReportedBy {hazard : Hazard} {operator : Bytes}
    {place : Position} :
    (Hazard.looseEquality operator).isReportedBy (hazard.finding place) = true ↔
      hazard = .looseEquality operator := by
  rw [Hazard.isReportedBy, beq_iff_eq]
  constructor
  · intro same
    have category := congrArg Finding.category same
    have severity := congrArg Finding.severity same
    have message : hazard.message = (Hazard.looseEquality operator).message :=
      congrArg Finding.message same
    cases hazard with
    | looseEquality other =>
        -- The operator is written twice, so the lengths of the words decide it.
        have size := congrArg List.length message
        simp only [Hazard.message, List.length_append] at size
        have sameLength : other.length = operator.length := by omega
        simp only [Hazard.message, List.append_assoc] at message
        have inner := List.append_cancel_left message
        exact congrArg _ (List.append_inj inner sameLength).1
    | implicitGlobal name => cases severity
    | _ => cases category
  · rintro rfl
    rfl

theorem functionScopedVariable_isReportedBy {hazard : Hazard}
    {place : Position} :
    Hazard.functionScopedVariable.isReportedBy (hazard.finding place) = true ↔
      hazard = .functionScopedVariable := by
  rw [Hazard.isReportedBy, beq_iff_eq]
  constructor
  · intro same
    have category := congrArg Finding.category same
    cases hazard with
    | functionScopedVariable => rfl
    | _ => cases category
  · rintro rfl
    rfl

theorem filter_hazards_looseEquality {operator : Bytes}
    (loose : operator ∈ Audit.looseEqualities) (occurrences : Bytes → Nat)
    (insideLoop : Bool) (node : Node) :
    (Audit.hazards occurrences insideLoop node).filter
        (· == .looseEquality operator) =
      if node.comparesBy operator then [.looseEquality operator] else [] := by
  unfold Node.comparesBy
  split
  · rename_i other left right position
    by_cases same : other = operator
    · subst same
      simp [Audit.hazards, Audit.looseEquality?, loose]
    · by_cases listed : other ∈ Audit.looseEqualities <;>
        simp [Audit.hazards, Audit.looseEquality?, listed, same]
  · rename_i other
    apply filter_hazards_of_kind_ne
    intro kind
    unfold Node.kind at kind
    split at kind <;> cases kind
    exact other _ _ _ _ rfl

theorem filter_hazards_functionScopedVariable (occurrences : Bytes → Nat)
    (insideLoop : Bool) (node : Node) :
    (Audit.hazards occurrences insideLoop node).filter
        (· == .functionScopedVariable) =
      if node.declaresVar then [.functionScopedVariable] else [] := by
  unfold Node.declaresVar
  split
  · rename_i keyword declarators position
    by_cases same : keyword = "var" <;>
      simp [Audit.hazards, Audit.functionScopedVariable?, same]
  · rename_i other
    apply filter_hazards_of_kind_ne
    intro kind
    unfold Node.kind at kind
    split at kind <;> cases kind
    exact other _ _ _ rfl

theorem isSpelled_of_kind_mem {token : Token} {kind : Token.Kind}
    {kinds : List Token.Kind} {spellings : List Bytes}
    (known : token.kind ∈ kinds) (unlisted : kind ∉ kinds := by decide) :
    token.isSpelled kind spellings = false := by
  have different : token.kind ≠ kind := by
    rintro rfl
    exact unlisted known
  rw [Token.isSpelled, beq_false_of_ne different, Bool.false_and]

/-- An operator of the ladder that is spelled as a loose equality compares. -/
theorem kind_of_loose {rank : Rank} {token : Token}
    (known : rank ∈ ranks) (admitted : rank.admits token = true)
    (loose : token.lexeme ∈ Audit.looseEqualities) :
    token.kind = .comparison := by
  have comparing : ∀ rank ∈ ranks, ∀ spelling ∈ rank.spellings,
      spelling ∈ Audit.looseEqualities → rank.kind = .comparison := by
    decide
  obtain ⟨kind, spelling⟩ := isSpelled_iff.mp admitted
  rw [kind]
  exact comparing rank known token.lexeme spelling loose

def comparisons {operator : Bytes}
    (loose : operator ∈ Audit.looseEqualities) : Marking Unit where
  ofToken token :=
    if token.isSpelled .comparison [operator] then some () else none
  ofNode node := if node.comparesBy operator then some () else none
  name token kind := by
    rw [isSpelled_of_kind_mem (List.mem_singleton.mpr kind)]
    rfl
  literal token content writes := by
    rw [isSpelled_of_kind_mem (kind_of_literal? writes)]
    rfl
  operator rank known token left right position admitted := by
    have same : token.isSpelled .comparison [operator] =
        (token.lexeme == operator) := by
      by_cases spelled : token.lexeme = operator
      · rw [← spelled] at loose
        simp [Token.isSpelled, kind_of_loose known admitted loose, spelled]
      · simp [Token.isSpelled, spelled]
    rw [same]
    rfl
  declaration token contents spelled := by
    rw [isSpelled_of_kind_mem (List.mem_singleton.mpr (kind_of_isSpelled spelled))]
    rfl
  structural token listed := by
    rw [isSpelled_of_kind_mem listed]
    rfl
  control token spelled := by
    rw [isSpelled_of_kind_mem (List.mem_singleton.mpr (kind_of_isSpelled spelled))]
    rfl
  others node other := by
    unfold Node.comparesBy
    split
    · cases other
    · rfl

def varKeywords : Marking Position where
  ofToken token :=
    if token.isSpelled .keyword ["var"] then some token.position else none
  ofNode node := if node.declaresVar then some node.position else none
  name token kind := by
    rw [isSpelled_of_kind_mem (List.mem_singleton.mpr kind)]
    rfl
  literal token content writes := by
    rw [isSpelled_of_kind_mem (kind_of_literal? writes)]
    rfl
  operator rank known token left right position admitted := by
    have listed : rank.kind ∈ ranks.map Rank.kind := List.mem_map_of_mem known
    rw [← kind_of_isSpelled admitted] at listed
    rw [isSpelled_of_kind_mem listed]
    rfl
  declaration token contents spelled := by
    have same : token.isSpelled .keyword ["var"] =
        (token.lexeme == Bytes.ofString "var") := by
      rw [Token.isSpelled, kind_of_isSpelled spelled, List.contains_cons]
      simp
    rw [same]
    rfl
  structural token listed := by
    rw [isSpelled_of_kind_mem listed]
    rfl
  control token spelled := if_neg (not_isSpelled_of_disjoint spelled)
  others node other := by
    unfold Node.declaresVar
    split
    · cases other
    · rfl

/-! ### The findings and the tokens -/

section Clean

variable {source : Bytes} (clean : (parse source).diagnostics = [])

include clean

theorem countP_looseEquality {operator : Bytes}
    (loose : operator ∈ Audit.looseEqualities) :
    (audit (parse source).program).countP
        (Hazard.looseEquality operator).isReportedBy =
      (outsideHeaders (significant source)).countP
        (·.isSpelled .comparison [operator]) := by
  have marks := congrArg List.length (marks_parse (comparisons loose) clean)
  have noted {α : Type} (test : α → Bool) (items : List α) :
      (items.filterMap fun item => if test item then some () else none).length =
        items.countP test := by
    rw [filterMap_noted, List.length_map, List.countP_eq_length_filter]
  calc (audit (parse source).program).countP
        (Hazard.looseEquality operator).isReportedBy
      _ = (Node.program (parse source).program).preorder.countP
            (·.comparesBy operator) := by
          rw [List.countP_eq_length_filter,
            filter_audit looseEquality_isReportedBy
              (filter_hazards_looseEquality loose),
            List.length_map, List.countP_eq_length_filter]
      _ = (Node.program (parse source).program).yield.countP
            (·.comparesBy operator) :=
          ((Node.yield_perm_preorder _).countP_eq _).symm
      _ = (outsideHeaders (significant source)).countP
            (·.isSpelled .comparison [operator]) := by
          rw [← noted, ← noted]
          exact marks.symm

theorem positions_functionScopedVariable :
    ((audit (parse source).program).filter
        Hazard.functionScopedVariable.isReportedBy).map Finding.position =
      ((outsideHeaders (significant source)).filter
        (·.isSpelled .keyword ["var"])).map Token.position := by
  have unmarked (node : Node) (kind : node.kind = .binaryExpression) :
      varKeywords.ofNode node = none := by
    apply if_neg
    unfold Node.declaresVar
    split
    · cases kind
    · exact Bool.false_ne_true
  have marks := marks_parse varKeywords clean
  -- A declaration comes before all below it, so here the two orders agree.
  rw [Node.filterMap_yield unmarked] at marks
  rw [filter_audit functionScopedVariable_isReportedBy
    filter_hazards_functionScopedVariable, List.map_map]
  exact (filterMap_noted ..).symm.trans (marks.symm.trans (filterMap_noted ..))

end Clean

/--
Findings about loose equality and about `var` match the tokens of a source that is
read without diagnostics, the headers of loops left out: the former by number, the
latter by place, in the order of the report.
-/
theorem audit_matches_tokens (source : Bytes)
    (clean : (parse source).diagnostics = []) :
    (∀ operator ∈ Audit.looseEqualities,
        (audit (parse source).program).countP
            (Hazard.looseEquality operator).isReportedBy =
          (outsideHeaders (significant source)).countP
            (·.isSpelled .comparison [operator])) ∧
      ((audit (parse source).program).filter
          Hazard.functionScopedVariable.isReportedBy).map Finding.position =
        ((outsideHeaders (significant source)).filter
          (·.isSpelled .keyword ["var"])).map Token.position :=
  ⟨fun _ loose => countP_looseEquality clean loose,
    positions_functionScopedVariable clean⟩

/-- What the header of a loop declares and compares is not counted. -/
theorem audit_matches_tokens_loop :
    (audit (parse "for (var i = a == b;;) var c = d == (e == f)").program).countP
        (Hazard.looseEquality "==").isReportedBy = 2 ∧
      ((audit (parse "for (var i = a == b;;) var c = d == (e == f)").program).filter
          Hazard.functionScopedVariable.isReportedBy).map Finding.position =
        [⟨1, 24⟩] := by
  have clean :
      (parse "for (var i = a == b;;) var c = d == (e == f)").diagnostics = [] := by
    decide +kernel
  obtain ⟨equalities, declarations⟩ := audit_matches_tokens _ clean
  constructor
  · exact (equalities "==" (by decide)).trans (by decide +kernel)
  · exact declarations.trans (by decide +kernel)

end ScriptAudit
