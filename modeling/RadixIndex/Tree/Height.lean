/-
# The height of a tree

A measure for recursion on two trees at once: a node is higher than each of its
children by more than the length of its stem, so a tree gets lower when one goes
down to a child and also when bytes are taken off the stem of its root.
-/
import RadixIndex.Tree

namespace RadixIndex

/-- The largest of finitely many numbers, or zero. -/
def largest {n : Nat} (f : Fin n → Nat) : Nat := (List.ofFn f).foldr max 0

theorem le_foldr_max {x : Nat} : ∀ {l : List Nat}, x ∈ l → x ≤ l.foldr max 0
  | _ :: _, h => by
      rcases List.mem_cons.mp h with rfl | h
      · exact Nat.le_max_left _ _
      · exact Nat.le_trans (le_foldr_max h) (Nat.le_max_right _ _)

theorem foldr_max_le {m : Nat} : ∀ {l : List Nat}, (∀ x ∈ l, x ≤ m) → l.foldr max 0 ≤ m
  | [], _ => Nat.zero_le m
  | y :: _, h =>
      Nat.max_le.mpr ⟨h y List.mem_cons_self,
        foldr_max_le fun x hx => h x (List.mem_cons_of_mem _ hx)⟩

theorem le_largest {n : Nat} (f : Fin n → Nat) (i : Fin n) : f i ≤ largest f :=
  le_foldr_max (List.mem_ofFn.mpr ⟨i, rfl⟩)

theorem largest_le {n m : Nat} {f : Fin n → Nat} (h : ∀ i, f i ≤ m) : largest f ≤ m :=
  foldr_max_le fun x hx => by
    obtain ⟨i, rfl⟩ := List.mem_ofFn.mp hx
    exact h i

namespace Tree

variable {H : Type} [NodeHeader H]

/-- The greatest number of stem bytes and nodes on a way down. -/
def height : Tree H → Nat
  | .empty => 0
  | .leaf _ => 0
  | .node h c => 1 + NodeHeader.stemLength h + largest fun i => (c i).height

theorem height_node (h : H) (c : Fin (NodeHeader.width h) → Tree H) :
    (Tree.node h c).height = 1 + NodeHeader.stemLength h + largest fun i => (c i).height :=
  rfl

/-- A child is lower than its node by more than the stem of the node. -/
theorem height_child (h : H) (c : Fin (NodeHeader.width h) → Tree H) (i) :
    (c i).height + NodeHeader.stemLength h < (Tree.node h c).height := by
  have := le_largest (fun i => (c i).height) i
  rw [height_node]
  omega

end Tree

end RadixIndex
