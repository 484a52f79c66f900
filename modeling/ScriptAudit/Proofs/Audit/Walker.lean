/-
An audit as one machine: a first pass over the tree fills a table of names, and a
second one keeps the nodes it is inside of on a stack, on which it looks for loops.
What it reports is the audit of the program: at every visit the stack holds the
strict ancestors of the node, and nothing of a subtree stays on it.
-/

import ScriptAudit.Proofs.Audit.Findings

namespace ScriptAudit

theorem Node.names_eq (node : Node) :
    node.names = node.identifierName?.toList ++ node.children.flatMap names := by
  rw [names, preorder_eq, ← List.singleton_append, List.filterMap_append,
    List.filterMap_flatMap, List.filterMap_eq_flatMap_toList,
    List.flatMap_singleton]
  rfl

structure Walker where
  /-- The nodes that are being visited, the innermost first. -/
  ancestors : List Node
  tally : NameTally
  reported : List Finding

namespace Walker

def count (tally : NameTally) (node : Node) : NameTally :=
  node.children.attach.foldl (fun tally child => count tally child.val)
    (node.identifierName?.elim tally tally.add)
termination_by sizeOf node
decreasing_by exact Node.sizeOf_lt_of_mem_children child.property

/-- The first pass adds the names of the tree one after the other. -/
theorem count_eq (tally : NameTally) (node : Node) :
    count tally node = node.names.foldl NameTally.add tally := by
  induction node using Node.induction_on_children generalizing tally with
  | step node inductionHypothesis =>
      rw [count, List.foldl_subtype (fun _ _ _ => rfl), List.unattach_attach,
        Node.names_eq, List.foldl_append, List.foldl_flatMap]
      have own : node.identifierName?.toList.foldl NameTally.add tally =
          node.identifierName?.elim tally tally.add := by
        cases node.identifierName? <;> rfl
      rw [own]
      exact List.foldl_ext _ _ _ fun before child member =>
        inductionHypothesis child member before

def report (walker : Walker) (findings : List Finding) : Walker :=
  { walker with reported := walker.reported ++ findings }

def insideLoop (walker : Walker) : Bool :=
  walker.ancestors.any Node.isLoop

def applyRules (walker : Walker) (node : Node) : Walker :=
  walker.report
    (Audit.findings walker.tally.occurrences walker.insideLoop node)

def push (walker : Walker) (node : Node) : Walker :=
  { walker with ancestors := node :: walker.ancestors }

def pop (walker : Walker) : Walker :=
  { walker with ancestors := walker.ancestors.tail }

def visit (walker : Walker) (node : Node) : Walker :=
  (node.children.attach.foldl (fun walker child => visit walker child.val)
    ((walker.applyRules node).push node)).pop
termination_by sizeOf node
decreasing_by exact Node.sizeOf_lt_of_mem_children child.property

theorem visit_eq (walker : Walker) (node : Node) :
    walker.visit node =
      (node.children.foldl visit ((walker.applyRules node).push node)).pop := by
  rw [visit, List.foldl_subtype (fun _ _ _ => rfl), List.unattach_attach]

/-- What the rules say about a node and all below it, when the nodes `above` are
on the stack. -/
def noted (tally : NameTally) (above : List Node) (node : Node) :
    List Finding :=
  (node.lineages above).flatMap fun visit =>
    Audit.findings tally.occurrences (visit.1.any Node.isLoop) visit.2

theorem noted_eq (tally : NameTally) (above : List Node) (node : Node) :
    noted tally above node =
      Audit.findings tally.occurrences (above.any Node.isLoop) node ++
        node.children.flatMap (noted tally (node :: above)) := by
  rw [noted, Node.lineages_eq, List.flatMap_cons, List.flatMap_assoc]
  rfl

theorem foldl_visit {nodes : List Node}
    (reports : ∀ node ∈ nodes, ∀ walker : Walker, walker.visit node =
      walker.report (noted walker.tally walker.ancestors node))
    (walker : Walker) :
    nodes.foldl visit walker =
      walker.report (nodes.flatMap (noted walker.tally walker.ancestors)) := by
  induction nodes generalizing walker with
  | nil => simp [report]
  | cons first rest inductionHypothesis =>
      have later := inductionHypothesis fun node member =>
        reports node (.tail _ member)
      rw [List.foldl_cons, reports first (.head _), later, List.flatMap_cons]
      simp [report]

/-- A visit leaves stack and table as they were, and reports on the node and all
below it with the stack it found. -/
theorem visit_eq_report (walker : Walker) (node : Node) :
    walker.visit node =
      walker.report (noted walker.tally walker.ancestors node) := by
  induction node using Node.induction_on_children generalizing walker with
  | step node inductionHypothesis =>
      rw [visit_eq, foldl_visit inductionHypothesis, noted_eq]
      simp [applyRules, insideLoop, push, pop, report]

def run (program : Program) : Walker :=
  let root := Node.program program
  visit { ancestors := [], tally := count ∅ root, reported := [] } root

theorem run_reported (program : Program) :
    (run program).reported =
      ((Node.program program).lineages []).flatMap fun visit =>
        Audit.findings program.occurrences (visit.1.any Node.isLoop) visit.2 := by
  rw [run, visit_eq_report, count_eq]
  rfl

/-- Whether a loop is on the stack is all that an audit keeps of it. -/
theorem reported_eq_audit (program : Program) :
    (run program).reported = audit program := by
  have visits : ((Node.program program).lineages []).map
      (Prod.map (List.any · Node.isLoop) id) =
        (Node.program program).walk
          (fun insideLoop node => insideLoop || node.isLoop) false := by
    refine Node.walk_map_context ?_ [] (Node.program program)
    intro above node
    rw [List.any_cons, Bool.or_comm]
  rw [run_reported, audit_eq, ← visits, List.flatMap_map]
  rfl

end Walker

end ScriptAudit
