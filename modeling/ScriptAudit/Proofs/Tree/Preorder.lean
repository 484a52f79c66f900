/-
The pre-order list of a tree: what holds of all its members, how the lists of
subtrees lie in it, and that every walk visits exactly its members. A walk can
carry the way down to each node.
-/

import Mathlib.Data.List.Basic
import ScriptAudit.Tree.Node

namespace ScriptAudit.Node

theorem mem_preorder_iff {node other : Node} :
    other ∈ node.preorder ↔
      other = node ∨ ∃ child ∈ node.children, other ∈ child.preorder := by
  rw [preorder_eq, List.mem_cons, List.mem_flatMap]

theorem mem_preorder_self (node : Node) : node ∈ node.preorder :=
  mem_preorder_iff.mpr (.inl rfl)

theorem forall_mem_preorder {holds : Node → Prop} {node : Node} :
    (∀ other ∈ node.preorder, holds other) ↔
      holds node ∧
        ∀ child ∈ node.children, ∀ other ∈ child.preorder, holds other := by
  constructor
  · intro all
    refine ⟨all node (mem_preorder_self node), ?_⟩
    intro child member other present
    exact all other (mem_preorder_iff.mpr (.inr ⟨child, member, present⟩))
  · rintro ⟨top, below⟩ other present
    rcases mem_preorder_iff.mp present with rfl | ⟨child, member, inner⟩
    · exact top
    · exact below child member other inner

theorem mem_preorder_trans {root node other : Node}
    (above : node ∈ root.preorder) (below : other ∈ node.preorder) :
    other ∈ root.preorder := by
  induction root using induction_on_children with
  | step root inductionHypothesis =>
      rcases mem_preorder_iff.mp above with rfl | ⟨child, member, inner⟩
      · exact below
      · exact mem_preorder_iff.mpr
          (.inr ⟨child, member, inductionHypothesis child member inner⟩)

theorem walk_map_snd {κ : Type} (descend : κ → Node → κ) (context : κ)
    (node : Node) :
    (node.walk descend context).map Prod.snd = node.preorder := by
  induction node using induction_on_children generalizing context with
  | step node inductionHypothesis =>
      rw [walk_eq, preorder_eq, List.map_cons, List.map_flatMap]
      congr 1
      exact List.flatMap_congr fun child member =>
        inductionHypothesis child member _

/-- A walk with less in its context makes the same visits. -/
theorem walk_map_context {κ ι : Type} {descend : κ → Node → κ}
    {lower : ι → Node → ι} {view : κ → ι}
    (follows : ∀ context node,
      view (descend context node) = lower (view context) node)
    (context : κ) (node : Node) :
    (node.walk descend context).map (Prod.map view id) =
      node.walk lower (view context) := by
  induction node using induction_on_children generalizing context with
  | step node inductionHypothesis =>
      rw [walk_eq, walk_eq, List.map_cons, List.map_flatMap, ← follows]
      congr 1
      exact List.flatMap_congr fun child member =>
        inductionHypothesis child member _

/-! ### Ancestors -/

/-- The nodes from `node` downwards in pre-order, each with the nodes above it,
the nearest first. -/
def lineages (above : List Node) (node : Node) : List (List Node × Node) :=
  node.walk (fun above node => node :: above) above

theorem lineages_eq (above : List Node) (node : Node) :
    node.lineages above =
      (above, node) :: node.children.flatMap (lineages (node :: above)) :=
  walk_eq _ _ _

def IsChildOf (child parent : Node) : Prop :=
  child ∈ parent.children

/-- The way from the root down to a node, upside down: each member is a child of
the next one. -/
structure Lineage (root : Node) (above : List Node) (node : Node) : Prop where
  linked : (node :: above).IsChain IsChildOf
  rooted : (node :: above).getLast? = some root

namespace Lineage

variable {root node child : Node} {above : List Node}

theorem refl (root : Node) : Lineage root [] root where
  linked := .singleton root
  rooted := rfl

theorem step (line : Lineage root above node) (member : child.IsChildOf node) :
    Lineage root (node :: above) child where
  linked := List.isChain_cons_cons.mpr ⟨member, line.linked⟩
  rooted := by rw [List.getLast?_cons_cons, line.rooted]

theorem of_mem_lineages (line : Lineage root above node)
    {visit : List Node × Node} (visited : visit ∈ node.lineages above) :
    Lineage root visit.1 visit.2 := by
  induction node using induction_on_children generalizing above with
  | step node inductionHypothesis =>
      rw [lineages_eq, List.mem_cons, List.mem_flatMap] at visited
      rcases visited with rfl | ⟨child, member, below⟩
      · exact line
      · exact inductionHypothesis child member (line.step member) below

end Lineage

end ScriptAudit.Node
