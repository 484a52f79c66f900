/-
The size of a statement list, seen from a walk of the tree. The size is computed from
the parts of each statement; a walk below the block finds the same number, namely of
statements that are no blocks and are not inside a function. So blocks do not
matter for the size: where one is opened or put around some statements, it stays.
-/

import Mathlib.Algebra.GroupWithZero.Nat
import Mathlib.Logic.Relation
import ScriptAudit.Audit.StatementCount
import ScriptAudit.Proofs.Audit.UnusedVariable

namespace ScriptAudit

namespace Node

/-- The nodes strictly below a node in pre-order, each with the nodes strictly between
the two, the nearest first. -/
def below (node : Node) : List (List Node × Node) :=
  node.children.flatMap (lineages [])

theorem lineages_append (above further : List Node) (node : Node) :
    node.lineages (above ++ further) =
      (node.lineages above).map fun visit => (visit.1 ++ further, visit.2) := by
  induction node using induction_on_children generalizing above with
  | step node inductionHypothesis =>
      rw [lineages_eq, lineages_eq, List.map_cons, List.map_flatMap]
      congr 1
      exact List.flatMap_congr fun child member =>
        inductionHypothesis child member (node :: above)

theorem lineages_eq_below (node : Node) :
    node.lineages [] =
      ([], node) :: node.below.map fun visit => (visit.1 ++ [node], visit.2) := by
  rw [lineages_eq, below, List.map_flatMap]
  congr 1
  exact List.flatMap_congr fun child _ => lineages_append [] [node] child

/-- Between a node and one below it stands the rest of the way from one to the other. -/
theorem lineage_of_mem_below {node : Node} {visit : List Node × Node}
    (visited : visit ∈ node.below) :
    Lineage node (visit.1 ++ [node]) visit.2 := by
  have listed : (visit.1 ++ [node], visit.2) ∈ node.lineages [] := by
    rw [lineages_eq_below]
    exact .tail _ (List.mem_map.mpr ⟨visit, visited, rfl⟩)
  exact (Lineage.refl node).of_mem_lineages listed

theorem below_map_snd (node : Node) :
    node.below.map Prod.snd = node.preorder.tail := by
  rw [← walk_map_snd (fun above node => node :: above) [], ← lineages,
    lineages_eq_below, List.map_cons, List.tail_cons, List.map_map]
  rfl

def isPlainStatement : Node → Bool
  | .statement (.block ..) => false
  | .statement _ => true
  | _ => false

def isFunction : Node → Bool
  | .statement (.function ..) => true
  | _ => false

/-- A visit of a statement other than a block, with no function above it. -/
def counts (visit : List Node × Node) : Bool :=
  visit.2.isPlainStatement && !visit.1.any isFunction

/-- What a node and all below it add to the size of the list they stand in. -/
def size : Node → Nat
  | .program content => Statement.countAll content.body
  | .statement content => content.count
  | _ => 0

end Node

theorem Statement.countAll_eq_sum (body : List Statement) :
    countAll body = (body.map count).sum := by
  induction body with
  | nil => rfl
  | cons first rest inductionHypothesis =>
      rw [countAll, inductionHypothesis, List.map_cons, List.sum_cons]

theorem Statement.countAll_append (front back : List Statement) :
    countAll (front ++ back) = countAll front + countAll back := by
  simp only [countAll_eq_sum, List.map_append, List.sum_append]

namespace Node

theorem sum_size_statements (body : List Statement) :
    ((body.map .statement).map size).sum = Statement.countAll body := by
  rw [Statement.countAll_eq_sum, List.map_map]
  rfl

theorem sum_size_terms {nodes : List Node}
    (terms : ∀ node ∈ nodes, node.isTerm = true) :
    (nodes.map size).sum = 0 := by
  rw [List.sum_eq_zero_iff_forall_eq_nat]
  intro own member
  obtain ⟨node, present, rfl⟩ := List.mem_map.mp member
  have term := terms node present
  cases node with
  | program content | statement content => cases term
  | _ => rfl

/-- A node counts itself and its children, unless it is a function: what a function
holds does not count. -/
theorem size_eq (node : Node) :
    node.size =
      (if node.isPlainStatement then 1 else 0) +
        if node.isFunction then 0 else (node.children.map size).sum := by
  cases node with
  | program content =>
      change _ = 0 + ((content.body.map .statement).map size).sum
      rw [sum_size_statements, Nat.zero_add]
      rfl
  | statement content =>
      cases content with
      | declaration keyword declarators position =>
          change 1 = 1 + ((declarators.map .declarator).map size).sum
          simp [Function.comp_def, size]
      | function identifier parameters body bodyPosition position => rfl
      | block body position =>
          change _ = 0 + ((body.map .statement).map size).sum
          rw [sum_size_statements, Nat.zero_add]
          rfl
      | expression value position => rfl
      | returning argument position => cases argument <;> rfl
      | ifThen test consequent position =>
          change 1 + consequent.count = 1 + (0 + (consequent.count + 0))
          omega
      | ifElse test consequent alternate position =>
          change 1 + consequent.count + alternate.count =
            1 + (0 + (consequent.count + (alternate.count + 0)))
          omega
      | loop kind body position => rfl
  | declarator content =>
      change 0 = 0 + (List.map size _).sum
      rw [sum_size_terms fun _ => isTerm_of_mem_declarator]
  | expression content | property content =>
      change 0 = 0 + (List.map size _).sum
      rw [sum_size_terms fun _ => isTerm_of_mem_children rfl]

theorem countP_lineages_of_function {above : List Node}
    (inside : above.any isFunction = true) (node : Node) :
    (node.lineages above).countP counts = 0 := by
  have shifted := lineages_append [] above node
  rw [List.nil_append] at shifted
  rw [shifted, List.countP_eq_zero]
  intro visit visited
  obtain ⟨inner, _, rfl⟩ := List.mem_map.mp visited
  simp [counts, inside]

/-- Outside functions, a walk from a node counts its size. -/
theorem countP_lineages {above : List Node}
    (outside : above.any isFunction = false) (node : Node) :
    (node.lineages above).countP counts = node.size := by
  induction node using induction_on_children generalizing above with
  | step node inductionHypothesis =>
      have own : counts (above, node) = node.isPlainStatement := by
        simp [counts, outside]
      have children : (node.children.flatMap (lineages (node :: above))).countP
          counts = if node.isFunction then 0 else (node.children.map size).sum := by
        rw [List.countP_flatMap]
        cases function : node.isFunction with
        | true =>
            simp [countP_lineages_of_function, function, Function.comp_def]
        | false =>
            have still : (node :: above).any isFunction = false := by
              simp [function, outside]
            congr 1
            exact List.map_congr_left fun child member =>
              inductionHypothesis child member still
      rw [lineages_eq, List.countP_cons, own, children, size_eq, Nat.add_comm]

theorem countP_below (body : List Statement) (position : Position) :
    (Node.statement (.block body position)).below.countP counts =
      Statement.countAll body := by
  change ((body.map .statement).flatMap (lineages [])).countP counts = _
  rw [List.countP_flatMap, ← sum_size_statements]
  congr 1
  exact List.map_congr_left fun child _ => countP_lineages rfl child

end Node

/-! ### Blocks -/

/--
In the first list, or in a list or a branch somewhere inside it, there is a block
that has been replaced by its contents in the second list. In the other direction, a
block has been put around some neighbours.
-/
inductive Statement.Unwraps : List Statement → List Statement → Prop where
  | here (inner : List Statement) (position : Position) :
      Unwraps [.block inner position] inner
  | among (front back : List Statement) {middle other : List Statement}
      (step : Unwraps middle other) :
      Unwraps (front ++ middle ++ back) (front ++ other ++ back)
  | block {body other : List Statement} (position : Position)
      (step : Unwraps body other) :
      Unwraps [.block body position] [.block other position]
  | function (identifier : Identifier) (parameters : List Identifier)
      {body other : List Statement} (bodyPosition position : Position)
      (step : Unwraps body other) :
      Unwraps [.function identifier parameters body bodyPosition position]
        [.function identifier parameters other bodyPosition position]
  | ifThen (test : Expr) {consequent other : Statement} (position : Position)
      (step : Unwraps [consequent] [other]) :
      Unwraps [.ifThen test consequent position] [.ifThen test other position]
  | consequent (test : Expr) {consequent other : Statement}
      (alternate : Statement) (position : Position)
      (step : Unwraps [consequent] [other]) :
      Unwraps [.ifElse test consequent alternate position]
        [.ifElse test other alternate position]
  | alternate (test : Expr) (consequent : Statement) {alternate other : Statement}
      (position : Position) (step : Unwraps [alternate] [other]) :
      Unwraps [.ifElse test consequent alternate position]
        [.ifElse test consequent other position]
  | loop (kind : LoopKind) {body other : Statement} (position : Position)
      (step : Unwraps [body] [other]) :
      Unwraps [.loop kind body position] [.loop kind other position]

namespace Statement

theorem Unwraps.countAll_eq {body other : List Statement}
    (step : Unwraps body other) : countAll body = countAll other := by
  induction step with
  | here inner position => rfl
  | among front back step inductionHypothesis =>
      simp only [countAll_append, inductionHypothesis]
  | block position step inductionHypothesis =>
      exact congrArg (· + 0) inductionHypothesis
  | function identifier parameters bodyPosition position step => rfl
  | _ =>
      simp only [countAll, count] at *
      omega

def Regrouped : List Statement → List Statement → Prop :=
  Relation.EqvGen Unwraps

theorem Regrouped.countAll_eq {body other : List Statement}
    (regrouped : Regrouped body other) : countAll body = countAll other := by
  induction regrouped with
  | rel body other step => exact step.countAll_eq
  | refl body => rfl
  | symm body other step inductionHypothesis => exact inductionHypothesis.symm
  | trans body middle other first second firstSame secondSame =>
      exact firstSame.trans secondSame

/--
The size of a block is the number of nodes strictly below it, in the order of a walk
and each with the nodes on the way up to the block, that are statements other than
blocks and have no function on that way. It is the same for every other way to put
the statements into blocks, at any depth.
-/
theorem countAll_eq_countP_below (body : List Statement) (position : Position) :
    countAll body =
        (Node.statement (.block body position)).below.countP Node.counts ∧
      (Node.statement (.block body position)).below.map Prod.snd =
        (Node.statement (.block body position)).preorder.tail ∧
      (∀ visit ∈ (Node.statement (.block body position)).below,
        Node.Lineage (.statement (.block body position))
          (visit.1 ++ [.statement (.block body position)]) visit.2) ∧
      ∀ other, Regrouped body other → countAll other = countAll body := by
  refine ⟨(Node.countP_below body position).symm, Node.below_map_snd _, ?_, ?_⟩
  · intro visit visited
    exact Node.lineage_of_mem_below visited
  · intro other regrouped
    exact regrouped.countAll_eq.symm

def bare (name : Bytes) : Statement :=
  .expression (.identifier ⟨name, .start⟩) .start

def loopBesideFunction (inner : List Statement) : List Statement :=
  [.loop .whileLoop (.block inner .start) .start,
    .function ⟨"f", .start⟩ [] [bare "c", bare "d"] .start .start]

/-- The loop loses the inner of its blocks, and a block is put around the loop and the
function, whose own statements do not count. -/
theorem countAll_eq_countP_below_loop :
    Regrouped (loopBesideFunction [bare "a", .block [bare "b"] .start])
        [.block (loopBesideFunction [bare "a", bare "b"]) .start] ∧
      countAll (loopBesideFunction [bare "a", .block [bare "b"] .start]) = 4 ∧
      countAll [.block (loopBesideFunction [bare "a", bare "b"]) .start] = 4 := by
  have opened : Unwraps (loopBesideFunction [bare "a", .block [bare "b"] .start])
      (loopBesideFunction [bare "a", bare "b"]) :=
    .among [] _ (.loop .whileLoop .start
      (.block .start (.among [bare "a"] [] (.here [bare "b"] .start))))
  have regrouped : Regrouped
      (loopBesideFunction [bare "a", .block [bare "b"] .start])
      [.block (loopBesideFunction [bare "a", bare "b"]) .start] :=
    .trans _ _ _ (.rel _ _ opened) (.symm _ _ (.rel _ _ (.here _ .start)))
  obtain ⟨counted, _, _, kept⟩ := countAll_eq_countP_below
    (loopBesideFunction [bare "a", .block [bare "b"] .start]) .start
  have four :
      countAll (loopBesideFunction [bare "a", .block [bare "b"] .start]) = 4 := by
    rw [counted]
    decide +kernel
  exact ⟨regrouped, four, (kept _ regrouped).trans four⟩

end Statement

end ScriptAudit
