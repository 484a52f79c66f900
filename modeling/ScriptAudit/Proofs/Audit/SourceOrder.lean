/-
Findings come in the order of the source. Nothing sorts them: a finding stands at
its node, an audit visits the nodes in pre-order, and pre-order is the order of
places.
-/

import ScriptAudit.Proofs.Audit.Findings
import ScriptAudit.Proofs.Grammar.Layout

namespace ScriptAudit

theorem position_of_mem_findings {occurrences : Bytes → Nat}
    {insideLoop : Bool} {node : Node} {finding : Finding}
    (found : finding ∈ Audit.findings occurrences insideLoop node) :
    finding.position = node.position := by
  obtain ⟨hazard, _, rfl⟩ := List.mem_map.mp found
  rfl

theorem audit_pairwise_le {program : Program}
    (ordered : (Node.program program).preorder.Pairwise
      fun first second => first.position ≤ second.position) :
    (audit program).Pairwise
      fun first second => first.position ≤ second.position := by
  rw [← Node.walk_map_snd (fun insideLoop node => insideLoop || node.isLoop)
    false, List.pairwise_map] at ordered
  apply List.pairwise_flatMap.mpr
  constructor
  · rintro ⟨insideLoop, node⟩ _
    apply List.pairwise_of_forall_mem_list
    intro first found second other
    rw [position_of_mem_findings found, position_of_mem_findings other]
  · refine ordered.imp ?_
    intro visit later before first found second other
    rw [position_of_mem_findings found, position_of_mem_findings other]
    exact before

theorem exists_token_of_mem_audit {source : Bytes} {finding : Finding}
    (reported : finding ∈ audit (parse source).program) :
    ∃ token ∈ (Token.Stream.ofTokens (tokenize source)).tokens,
      token.position = finding.position := by
  obtain ⟨node, present, insideLoop, hazard, carried, rfl⟩ :=
    exists_node_of_mem_audit reported
  rcases Node.mem_preorder_iff.mp present with rfl | ⟨root, member, inside⟩
  · -- A program carries no hazard of its own.
    cases carried
  · exact (stands_parse source).within root member node inside

theorem Token.Stream.kind_of_mem_tokens {all : List Token} {token : Token}
    (member : token ∈ (Token.Stream.ofTokens all).tokens) :
    token.kind.isTrivia = false ∧ token.kind ≠ .endOfFile := by
  have significant := (List.mem_filter.mp (List.takeWhile_subset _ member)).2
  have unfinished := List.all_eq_true.mp List.all_takeWhile token member
  constructor
  · simpa using significant
  · simpa [Token.Stream.isFinish] using unfinished

/--
The findings of any source come in the order of their places, and each stands at
a token of the source that is neither trivia nor the end of file.
-/
theorem audit_inSourceOrder (source : Bytes) :
    ((audit (parse source).program).Pairwise
      fun first second => first.position ≤ second.position) ∧
      ∀ finding ∈ audit (parse source).program,
        ∃ token ∈ tokenize source, token.kind.isTrivia = false ∧
          token.kind ≠ .endOfFile ∧ token.position = finding.position := by
  constructor
  · exact audit_pairwise_le (preorder_parse_pairwise_le source)
  · intro finding reported
    obtain ⟨token, parsed, place⟩ := exists_token_of_mem_audit reported
    obtain ⟨significant, unfinished⟩ := Token.Stream.kind_of_mem_tokens parsed
    exact ⟨token, Token.Stream.tokens_subset _ parsed, significant, unfinished,
      place⟩

end ScriptAudit
