/-
# The shape report, level by level

The report is made by going through the inner nodes level by level.  The nodes still to be
looked at stand in a queue: the first one is put in the report, and those among its
children that are inner nodes are put at the end of the queue.

Every step takes a node off the trees in the queue, so the queue runs empty.
-/
import RadixIndex.Tree.Shape

namespace RadixIndex

variable {H : Type} [NodeHeader H]

namespace Node

/-- The children that are inner nodes themselves. -/
def innerChildren (n : Node H) : List (Node H) := n.children.flatMap fun c => c.2.node?.toList

theorem nodes_of_node? : ∀ t : Tree H,
    t.nodes = t.node?.toList.flatMap fun n => n.toTree.nodes
  | .empty => rfl
  | .leaf _ => rfl
  | .node h c => by rw [Tree.node?, Option.toList, List.flatMap_singleton]; rfl

/-- The inner nodes from a node on down: the node and those below its inner children. -/
theorem nodes_toTree (n : Node H) :
    n.toTree.nodes = n :: n.innerChildren.flatMap fun m => m.toTree.nodes := by
  have hbelow : (fun c : UInt8 × Tree H => c.2.nodes) =
      fun c => c.2.node?.toList.flatMap fun m => m.toTree.nodes :=
    funext fun c => nodes_of_node? c.2
  rw [innerChildren, List.flatMap_assoc, ← hbelow, toTree, Tree.nodes, children, List.flatMap_map]
  rfl

end Node

/-- The report with the nodes of a queue and all nodes below them. -/
def Histogram.walk (s : Histogram) : (queue : List (Node H)) → Histogram
  | [] => s
  | n :: queue => walk (s.add n) (queue ++ n.innerChildren)
termination_by queue => (queue.flatMap fun n => n.toTree.nodes).length
decreasing_by
  rw [List.flatMap_append, List.flatMap_cons, Node.nodes_toTree n]
  simp only [List.length_append, List.length_cons]
  omega

/-- The shape report, made level by level. -/
def Tree.levelReport (t : Tree H) : Histogram := Histogram.walk {} t.node?.toList

end RadixIndex
