/-
What the words of a finding take over from a program: a name in the tree below the
node that carries the hazard, or one of the two loose equalities. Names are the
lexemes of identifier tokens, so every message that is reported about a source
stands on one line.
-/

import ScriptAudit.Proofs.Audit.Findings
import ScriptAudit.Proofs.Grammar.Placement
import ScriptAudit.Proofs.Number.Decimal
import ScriptAudit.Proofs.Token.Writing

namespace ScriptAudit

open Bytes

namespace Node

theorem mem_names_of_identifierName? {node : Node} {name : Bytes}
    (spelled : node.identifierName? = some name) : name ∈ node.names :=
  List.mem_filterMap.mpr ⟨node, mem_preorder_self node, spelled⟩

theorem names_subset_of_mem_preorder {root node : Node}
    (below : node ∈ root.preorder) : node.names ⊆ root.names := by
  intro name present
  obtain ⟨other, inside, spelled⟩ := List.mem_filterMap.mp present
  exact List.mem_filterMap.mpr ⟨other, mem_preorder_trans below inside, spelled⟩

theorem names_subset_of_mem_children {node child : Node}
    (member : child ∈ node.children) : child.names ⊆ node.names :=
  names_subset_of_mem_preorder
    (mem_preorder_iff.mpr (.inr ⟨child, member, mem_preorder_self child⟩))

theorem mem_names_of_child {node : Node} {value : Expr} {name : Bytes}
    (member : .expression value ∈ node.children)
    (spelled : value.name? = some name) : name ∈ node.names :=
  names_subset_of_mem_children member (mem_names_of_identifierName? spelled)

end Node

/-- A name in the tree of any source is the lexeme of an identifier token. -/
theorem exists_token_of_mem_names {source name : Bytes}
    (present : name ∈ (Node.program (parse source).program).names) :
    ∃ token ∈ tokenize source, token.kind = .identifier ∧
      token.lexeme = name := by
  obtain ⟨node, inside, spelled⟩ := List.mem_filterMap.mp present
  rcases Node.mem_preorder_iff.mp inside with rfl | ⟨child, member, found⟩
  · cases spelled
  have placed := allPlaced_parseTokens (tokenize source) child member node found
  cases node with
  | expression value =>
      cases value with
      | identifier identifier =>
          obtain ⟨token, listed, kind, rfl⟩ := placed.exists_token
          exact ⟨token, Token.Stream.tokens_subset _ listed, kind,
            Option.some.inj spelled⟩
      | _ => cases spelled
  | _ => cases spelled

/-- What the words of a hazard take over from the program. -/
def Hazard.quoted : Hazard → Bytes
  | codeExecution name | stringTimer name | markupProperty name => name
  | documentWrite name | implicitGlobal name | unusedVariable name => name
  | looseEquality operator => operator
  | insecureRequest | functionScopedVariable | loopConcatenation => []
  | oversizedFunction _ => []

namespace Audit

/-- What a hazard quotes is a name below its node or a loose equality. -/
theorem Carries.quoted_mem {occurrences : Bytes → Nat} {insideLoop : Bool}
    {node : Node} {hazard : Hazard}
    (carried : Carries occurrences insideLoop node hazard) :
    hazard.quoted = [] ∨ hazard.quoted ∈ looseEqualities ∨
      hazard.quoted ∈ node.names := by
  cases carried with
  | codeExecution spelled | stringTimer spelled | implicitGlobal spelled =>
      exact .inr (.inr (Node.mem_names_of_child (.head _) spelled))
  | @documentWrite object property _ place _ method _ spelled =>
      have below : method ∈
          (Node.expression (.member object property false place)).names :=
        Node.mem_names_of_child (.tail _ (.head _)) spelled
      exact .inr (.inr (Node.names_subset_of_mem_children (.head _) below))
  | markupProperty spelled =>
      exact .inr (.inr (Node.mem_names_of_child (.tail _ (.head _)) spelled))
  | looseEquality listed => exact .inr (.inl listed)
  | unusedVariable =>
      exact .inr (.inr (Node.mem_names_of_child (.head _) rfl))
  | _ => exact .inl rfl

end Audit

theorem newline_not_mem_of_isWord {word : Bytes}
    (spelled : Token.isWord word = true) : newline ∉ word := by
  cases word with
  | nil => cases spelled
  | cons first rest =>
      obtain ⟨starts, parts⟩ := Bool.and_eq_true_iff.mp spelled
      intro present
      rcases List.mem_cons.mp present with same | later
      · rw [← same] at starts
        cases starts
      · cases List.all_eq_true.mp parts newline later

theorem newline_not_mem_of_mem_names {source name : Bytes}
    (present : name ∈ (Node.program (parse source).program).names) :
    newline ∉ name := by
  obtain ⟨token, listed, kind, rfl⟩ := exists_token_of_mem_names present
  have valid := tokenize_valid listed (by rw [kind]; rfl) (by rw [kind]; nofun)
  exact newline_not_mem_of_isWord (valid.isWord_of_identifier kind)

theorem Hazard.newline_not_mem_message {hazard : Hazard}
    (oneLine : newline ∉ hazard.quoted) : newline ∉ hazard.message := by
  cases hazard with
  | codeExecution name | stringTimer name | documentWrite name =>
      simp only [message, List.mem_append, not_or]
      refine ⟨⟨?_, oneLine⟩, ?_⟩ <;> decide +kernel
  | markupProperty name | implicitGlobal name | unusedVariable name =>
      simp only [message, List.mem_append, not_or]
      refine ⟨?_, oneLine⟩
      decide +kernel
  | looseEquality operator =>
      simp only [message, List.mem_append, not_or]
      refine ⟨⟨⟨⟨?_, oneLine⟩, ?_⟩, oneLine⟩, ?_⟩ <;> decide +kernel
  | oversizedFunction statements =>
      simp only [message, List.mem_append, not_or]
      refine ⟨⟨?_, newline_not_mem_decimal statements⟩, ?_⟩ <;> decide +kernel
  | insecureRequest | functionScopedVariable | loopConcatenation => decide +kernel

/-- Whatever a source looks like, what is reported about it is on one line. -/
theorem newline_not_mem_message_of_mem_audit {source : Bytes} {finding : Finding}
    (reported : finding ∈ audit (parse source).program) :
    newline ∉ finding.message := by
  obtain ⟨node, present, insideLoop, hazard, carried, rfl⟩ :=
    exists_node_of_mem_audit reported
  apply Hazard.newline_not_mem_message
  have origin := (Audit.mem_hazards_iff.mp carried).quoted_mem
  rcases origin with nothing | listed | named
  · rw [nothing]
    exact List.not_mem_nil
  · have operators : ∀ operator ∈ Audit.looseEqualities, newline ∉ operator := by
      decide
    exact operators _ listed
  · exact newline_not_mem_of_mem_names
      (Node.names_subset_of_mem_preorder present named)

end ScriptAudit
