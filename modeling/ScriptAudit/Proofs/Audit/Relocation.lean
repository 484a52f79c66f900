/-
An audit does not depend on where things stand: the audit of a program with all
its places moved is the audit of the program with the places of its findings
moved. So layout carries no meaning from the tokens on: whatever is done to the
places of the tokens is done to the places of what is read and reported.
-/

import ScriptAudit.Proofs.Audit.Findings
import ScriptAudit.Proofs.Grammar.Relocation

namespace ScriptAudit

variable (move : Position → Position)

def Finding.relocate (finding : Finding) : Finding :=
  { finding with position := move finding.position }

namespace Node

def relocate : Node → Node
  | .program content => .program (content.relocate move)
  | .statement content => .statement (content.relocate move)
  | .declarator content => .declarator (content.relocate move)
  | .expression content => .expression (content.relocate move)
  | .property content => .property (content.relocate move)

theorem kind_relocate (node : Node) : (node.relocate move).kind = node.kind := by
  cases node with
  | statement content =>
      cases content with
      | loop kind body position => cases kind <;> rfl
      | _ => rfl
  | expression content => cases content <;> rfl
  | _ => rfl

theorem expressionChildren_relocate (content : Expr) :
    expressionChildren (content.relocate move) =
      (expressionChildren content).map (relocate move) := by
  cases content with
  | call callee arguments position =>
      simp [expressionChildren, Expr.relocate, Expr.relocateAll_eq_map, relocate]
  | array elements position =>
      simp [expressionChildren, Expr.relocate, Expr.relocateAll_eq_map, relocate]
  | object properties position =>
      simp [expressionChildren, Expr.relocate, Property.relocateAll_eq_map,
        relocate]
  | _ => rfl

theorem statementChildren_relocate (content : Statement) :
    statementChildren (content.relocate move) =
      (statementChildren content).map (relocate move) := by
  cases content with
  | declaration keyword declarators position =>
      simp [statementChildren, Statement.relocate, relocate]
  | function identifier parameters body bodyPosition position =>
      simp [statementChildren, Statement.relocate, relocate, ofIdentifier,
        Expr.relocate]
  | block body position =>
      simp [statementChildren, Statement.relocate,
        Statement.relocateAll_eq_map, relocate]
  | returning argument position => cases argument <;> rfl
  | _ => rfl

theorem children_relocate (node : Node) :
    (node.relocate move).children = node.children.map (relocate move) := by
  cases node with
  | program content =>
      simp [children, relocate, Program.relocate]
  | statement content => exact statementChildren_relocate move content
  | declarator content =>
      obtain ⟨identifier, init, position⟩ := content
      cases init <;> rfl
  | expression content => exact expressionChildren_relocate move content
  | property content =>
      cases content
      rfl

/-- A walk that does not look at places visits the moved nodes in the same
contexts. -/
theorem walk_relocate {κ : Type} {descend : κ → Node → κ}
    (blind : ∀ context node,
      descend context (node.relocate move) = descend context node)
    (context : κ) (node : Node) :
    (node.relocate move).walk descend context =
      (node.walk descend context).map (Prod.map id (relocate move)) := by
  induction node using induction_on_children generalizing context with
  | step node inductionHypothesis =>
      rw [walk_eq, walk_eq, children_relocate, blind, List.map_cons,
        List.flatMap_map, List.map_flatMap]
      congr 1
      apply List.flatMap_congr
      intro child member
      exact inductionHypothesis child member _

theorem names_relocate (node : Node) :
    (node.relocate move).names = node.names := by
  have same : identifierName? ∘ relocate move = identifierName? := by
    funext node
    cases node with
    | expression content => cases content <;> rfl
    | _ => rfl
  unfold names preorder
  rw [walk_relocate move fun _ _ => rfl, List.map_map, List.filterMap_map,
    List.filterMap_map]
  exact congrArg (fun note => List.filterMap note _)
    (congrArg (· ∘ Prod.snd) same)

end Node

/-! ### Rules -/

namespace Expr

theorem name?_relocate (value : Expr) :
    (value.relocate move).name? = value.name? := by
  cases value <;> rfl

theorem stringText?_relocate (value : Expr) :
    (value.relocate move).stringText? = value.stringText? := by
  cases value with
  | literal content =>
      obtain ⟨value, raw, position⟩ := content
      cases value <;> rfl
  | _ => rfl

end Expr

namespace Statement

mutual

theorem count_relocate : (content : Statement) →
    (content.relocate move).count = content.count
  | .block body _ => countAll_relocateAll body
  | .ifThen _ consequent _ => congrArg (1 + ·) (count_relocate consequent)
  | .ifElse _ consequent alternate _ => by
      rw [relocate, count, count, count_relocate consequent,
        count_relocate alternate]
  | .loop _ body _ => congrArg (1 + ·) (count_relocate body)
  | .declaration .. | .function .. | .expression .. | .returning .. => rfl

theorem countAll_relocateAll : (contents : List Statement) →
    countAll (relocateAll move contents) = countAll contents
  | [] => rfl
  | content :: others => by
      rw [relocateAll, countAll, countAll, count_relocate content,
        countAll_relocateAll others]

end

end Statement

namespace Audit

theorem documentWrite?_relocate (callee : Expr) :
    documentWrite? (callee.relocate move) = documentWrite? callee := by
  cases callee with
  | member object property computed position =>
      cases computed with
      | true => rfl
      | false =>
          simp only [Expr.relocate, documentWrite?, Expr.name?_relocate]
  | _ => rfl

theorem insecureRequest?_relocate (callee : Expr) (arguments : List Expr) :
    insecureRequest? (callee.relocate move)
        (arguments.map (Expr.relocate move)) =
      insecureRequest? callee arguments := by
  cases callee with
  | member object property computed position =>
      simp only [Expr.relocate, insecureRequest?, List.getElem?_map,
        Option.bind_map, Function.comp_def, Expr.stringText?_relocate,
        Expr.name?_relocate]
  | _ => rfl

/-- The rules look at names, texts and shapes only. -/
theorem hazards_relocate (occurrences : Bytes → Nat) (insideLoop : Bool)
    (node : Node) :
    hazards occurrences insideLoop (node.relocate move) =
      hazards occurrences insideLoop node := by
  cases node with
  | expression content =>
      cases content with
      | call callee arguments position =>
          simp only [Node.relocate, Expr.relocate, Expr.relocateAll_eq_map,
            hazards, documentWrite?_relocate, insecureRequest?_relocate,
            codeExecution?, stringTimer?, Expr.name?_relocate, List.head?_map,
            Option.bind_map, Function.comp_def, Expr.stringText?_relocate]
      | member object property computed position =>
          simp only [Node.relocate, Expr.relocate, hazards, markupProperty?,
            Expr.name?_relocate]
      | assignment operator target value position =>
          simp only [Node.relocate, Expr.relocate, hazards, implicitGlobal?,
            loopConcatenation?, Expr.name?_relocate, Expr.stringText?_relocate]
      | _ => rfl
  | statement content =>
      cases content with
      | function identifier parameters body bodyPosition position =>
          simp only [Node.relocate, Statement.relocate, hazards,
            oversizedFunction?, Statement.countAll_relocateAll]
      | _ => rfl
  | _ => rfl

theorem findings_relocate (occurrences : Bytes → Nat) (insideLoop : Bool)
    (node : Node) :
    findings occurrences insideLoop (node.relocate move) =
      (findings occurrences insideLoop node).map (Finding.relocate move) := by
  have moved (place : (node.relocate move).position = move node.position) :
      findings occurrences insideLoop (node.relocate move) =
        (findings occurrences insideLoop node).map (Finding.relocate move) := by
    unfold findings
    rw [hazards_relocate, List.map_map, place]
    rfl
  cases node with
  | program content =>
      -- A program stays at the start, but it has no findings of its own.
      rfl
  | statement content => exact moved (by cases content <;> rfl)
  | declarator content => exact moved rfl
  | expression content => exact moved (Expr.position_relocate move content)
  | property content => exact moved (by cases content; rfl)

end Audit

theorem audit_relocate (program : Program) :
    audit (program.relocate move) =
      (audit program).map (Finding.relocate move) := by
  have root : Node.program (program.relocate move) =
      (Node.program program).relocate move :=
    rfl
  have blind (insideLoop : Bool) (node : Node) :
      (insideLoop || (node.relocate move).isLoop) =
        (insideLoop || node.isLoop) := by
    unfold Node.isLoop
    rw [Node.kind_relocate]
  have occurrences : (program.relocate move).occurrences =
      program.occurrences := by
    unfold Program.occurrences
    rw [root, Node.names_relocate]
  rw [audit_eq, audit_eq, root, occurrences, Node.walk_relocate move blind,
    List.flatMap_map, List.map_flatMap]
  congr 1
  funext visit
  exact Audit.findings_relocate move _ _ _

/--
Tokens whose places are all moved by one function give the same program, the same
diagnostics in the same order and the same findings, with their places moved by
that function. Of the message of a diagnostic, the place at its end is all that
changes.
-/
theorem audit_parseTokens_relocate (tokens : List Token) :
    (parseTokens (tokens.map (Token.relocate move))).program =
        (parseTokens tokens).program.relocate move ∧
      (parseTokens (tokens.map (Token.relocate move))).diagnostics.map
          (fun diagnostic => (diagnostic.position, diagnostic.message)) =
        (parseTokens tokens).diagnostics.map (fun diagnostic =>
          (move diagnostic.position,
            diagnostic.wording
              ++ Diagnostic.location (move diagnostic.position))) ∧
      (∀ diagnostic : Diagnostic,
        diagnostic.message =
          diagnostic.wording ++ Diagnostic.location diagnostic.position) ∧
      audit (parseTokens (tokens.map (Token.relocate move))).program =
        (audit (parseTokens tokens).program).map (Finding.relocate move) := by
  rw [parseTokens_relocate]
  refine ⟨rfl, ?_, Diagnostic.message_eq, audit_relocate move _⟩
  rw [Parsed.relocate, List.map_map]
  apply List.map_congr_left
  intro diagnostic _
  exact congrArg (Prod.mk _) (Diagnostic.message_relocate move diagnostic)

end ScriptAudit
