/-
Calls that execute code cannot hide from an audit by their surroundings: in a
source that is read without diagnostics, every name of an executor that is called
in plain sight is reported where it stands. Conversely, whatever a source looks
like, a finding about executed code stands at a name with the spelling it reports.
-/

import ScriptAudit.Proofs.Audit.Findings
import ScriptAudit.Proofs.Grammar.Calls
import ScriptAudit.Proofs.Grammar.Completeness
import ScriptAudit.Proofs.Grammar.Placement
import ScriptAudit.Proofs.Token.Extent

namespace ScriptAudit

open Grammar

/--
The parts of the significant tokens around a name that is called in plain sight.
-/
structure CalledInSight (source : Bytes) (before : List Token) (name : Token)
    (following : List Token) : Prop where
  split : significant source = before ++ name :: following
  named : name.kind = .identifier
  called : begins (fun token => token.kind == .leftParen) following = true
  visible : Visible before

namespace CalledInSight

variable {source : Bytes} {before following : List Token} {name : Token}

theorem spot (sight : CalledInSight source before name following) :
    ∃ inner, begins (fun token => token.kind == .leftParen) inner = true ∧
      Spot name inner (Token.Stream.ofTokens (tokenize source)).tokens := by
  have same := sight.split
  rw [significant_eq_append] at same
  have called := sight.called
  rcases List.eq_nil_or_concat following with rfl | ⟨inner, last, rfl⟩
  · cases called
  · rw [List.concat_eq_append, ← List.cons_append, ← List.append_assoc] at same
    obtain ⟨parsed, finish⟩ := List.append_inj' same rfl
    rw [List.concat_eq_append, ← finish] at called
    refine ⟨inner, ?_, before, parsed, sight.visible⟩
    cases inner with
    | nil => cases called
    | cons opening others => exact called

/-- A name that is called in plain sight is the callee of a call in the tree. -/
theorem exists_call (sight : CalledInSight source before name following)
    (clean : (parse source).diagnostics = []) :
    ∃ arguments,
      Node.expression
          (.call (.identifier (identifierOf name)) arguments name.position) ∈
        (Node.program (parse source).program).preorder := by
  obtain ⟨inner, called, spot⟩ := sight.spot
  have reading := (parseTokens_eq_iff (tokenize source) _).mp ⟨clean, rfl⟩
  obtain ⟨node, member, arguments, found⟩ := caught_of_reads sight.named called
    reading trivial spot List.nil_suffix
  exact ⟨arguments, Node.mem_preorder_iff.mpr (.inr ⟨node, member, found⟩)⟩

end CalledInSight

/-- A call in the tree of any source stands at its callee; if this is a name, it
stands at a token that spells it. -/
theorem exists_token_of_call {source : Bytes} {callee : Expr}
    {arguments : List Expr} {position : Position} {name : Bytes}
    (present : Node.expression (.call callee arguments position) ∈
      (Node.program (parse source).program).preorder)
    (spelled : callee.name? = some name) :
    ∃ token ∈ tokenize source, token.kind = .identifier ∧
      token.lexeme = name ∧ token.position = position := by
  have placed {node : Node} (inside : node ∈ (Node.expression
      (.call callee arguments position)).preorder) :
      node.Placed (Token.Stream.ofTokens (tokenize source)).tokens := by
    rcases Node.mem_preorder_iff.mp present with same | ⟨child, member, found⟩
    · cases same
    · exact allPlaced_parseTokens (tokenize source) child member node
        (Node.mem_preorder_trans found inside)
  have place := (placed (Node.mem_preorder_self _)).eq_of_isLed rfl
  have calleePlaced := placed (Node.mem_preorder_iff.mpr
    (.inr ⟨_, .head _, Node.mem_preorder_self _⟩))
  cases callee with
  | identifier identifier =>
      obtain ⟨token, member, kind, rfl⟩ := calleePlaced.exists_token
      exact ⟨token, Token.Stream.tokens_subset _ member, kind,
        Option.some.inj spelled, Option.some.inj place⟩
  | _ => cases spelled

/--
The name of an executor that is called in plain sight, in a source without
diagnostics, is reported where it stands. In any source, what is reported as the
call of an executor stands at a token with its name.
-/
theorem audit_codeExecution (source : Bytes) :
    ((parse source).diagnostics = [] →
      ∀ before name following,
        CalledInSight source before name following →
          Audit.codeExecutors.contains name.lexeme = true →
            (Hazard.codeExecution name.lexeme).finding name.position ∈
              audit (parse source).program) ∧
      ∀ name position,
        (Hazard.codeExecution name).finding position ∈
            audit (parse source).program →
          ∃ token ∈ tokenize source, token.kind = .identifier ∧
            token.lexeme = name ∧ token.position = position := by
  constructor
  · intro clean before name following sight executor
    obtain ⟨arguments, present⟩ := sight.exists_call clean
    apply mem_audit_of_node present
    intro insideLoop
    exact codeExecution_mem_hazards.mpr ⟨_, _, _, rfl, rfl, executor⟩
  · intro name position reported
    obtain ⟨node, present, insideLoop, hazard, carried, same⟩ :=
      exists_node_of_mem_audit reported
    obtain ⟨rfl, rfl⟩ := eq_codeExecution_of_finding same
    obtain ⟨callee, arguments, position, rfl, spelled, _⟩ :=
      codeExecution_mem_hazards.mp carried
    exact exists_token_of_call present spelled

/-- A call in an index, in the body of a loop. -/
theorem audit_codeExecution_inLoop :
    (Hazard.codeExecution "eval").finding ⟨1, 13⟩ ∈
        audit (parse "while (n) f[eval(b)]").program ∧
      ∃ token ∈ tokenize "while (n) f[eval(b)]", token.kind = .identifier ∧
        token.lexeme = "eval" ∧ token.position = ⟨1, 13⟩ := by
  have clean : (parse "while (n) f[eval(b)]").diagnostics = [] := by
    decide +kernel
  have sight : CalledInSight "while (n) f[eval(b)]"
      [⟨.keyword, "while", ⟨1, 1⟩⟩, ⟨.leftParen, "(", ⟨1, 7⟩⟩,
        ⟨.identifier, "n", ⟨1, 8⟩⟩, ⟨.rightParen, ")", ⟨1, 9⟩⟩,
        ⟨.identifier, "f", ⟨1, 11⟩⟩, ⟨.leftBracket, "[", ⟨1, 12⟩⟩]
      ⟨.identifier, "eval", ⟨1, 13⟩⟩
      [⟨.leftParen, "(", ⟨1, 17⟩⟩, ⟨.identifier, "b", ⟨1, 18⟩⟩,
        ⟨.rightParen, ")", ⟨1, 19⟩⟩, ⟨.rightBracket, "]", ⟨1, 20⟩⟩,
        Token.finish ⟨1, 21⟩] := by
    constructor
    · decide +kernel
    · rfl
    · rfl
    · constructor
      · decide
      · rintro _ ⟨⟩
        decide
  obtain ⟨complete, sound⟩ := audit_codeExecution "while (n) f[eval(b)]"
  have reported := complete clean _ _ _ sight (by decide)
  exact ⟨reported, sound _ _ reported⟩

end ScriptAudit
