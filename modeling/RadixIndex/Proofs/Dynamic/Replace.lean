/-
# Replacing goes the way of searching

Replacing a record is a search of its own: it goes down into the slots of the tree where the
search for a record goes down its nodes, and both decide at every node where to go on.  They
decide alike, in every tree, whatever is wrong with it.  So where the search answers, replacing
answers; it says that it found something where the search found something; and then the leaf
that the search has come to holds the new record, and nothing else in the tree is another thing
than before (`update_follows_get`).

To say which leaf that is, slots have addresses: the numbers of the slots to go through from the
root on.  What is at an address is an `Entry`, and `Tree.locate` is the search that remembers
the address it has come to.
-/
import RadixIndex.Proofs.Dynamic.InPlace

namespace RadixIndex

/-! ## Addresses -/

/-- What is in a slot, without what is below it: of a node its header, which has the layout, the
count and the stem, and the bytes that lead on, with the numbers of the slots they lead to. -/
inductive Entry (H : Type) where
  | empty
  | leaf (record : Record)
  | node (header : H) (branches : List (UInt8 × Nat))

namespace Tree

variable {H : Type} [NodeHeader H]

/-- The entry of a tree. -/
def entry : Tree H → Entry H
  | .empty => .empty
  | .leaf r => .leaf r
  | .node h c => .node h ((Node.mk h c).slots.map fun s => (s.1, s.2.val))

/-- The entry at an address, if there is such a slot. -/
def entryAt : Tree H → (address : List Nat) → Option (Entry H)
  | t, [] => some t.entry
  | .node h c, i :: rest =>
      if hi : i < NodeHeader.width h then entryAt (c ⟨i, hi⟩) rest else none
  | .empty, _ :: _ => none
  | .leaf _, _ :: _ => none

@[simp]
theorem entryAt_nil (t : Tree H) : t.entryAt [] = some t.entry := by
  cases t <;> rfl

theorem entryAt_child (n : Node H) (i : Fin (NodeHeader.width n.header)) (rest : List Nat) :
    n.toTree.entryAt (i.val :: rest) = (n.child i).entryAt rest := dif_pos i.isLt

theorem entryAt_setChild (n : Node H) (i : Fin (NodeHeader.width n.header)) (t : Tree H)
    (rest : List Nat) : (n.setChild i t).toTree.entryAt (i.val :: rest) = t.entryAt rest := by
  rw [Node.setChild_eq]
  refine (entryAt_child ⟨n.header, setCell n.child i t⟩ i rest).trans ?_
  dsimp only
  rw [setCell_same]

theorem entryAt_setChild_other (n : Node H) (i : Fin (NodeHeader.width n.header)) (t : Tree H)
    {j : Nat} (hj : j ≠ i.val) (rest : List Nat) :
    (n.setChild i t).toTree.entryAt (j :: rest) = n.toTree.entryAt (j :: rest) := by
  rw [Node.setChild_eq]
  refine dite_congr rfl (fun hlt => ?_) fun _ => rfl
  dsimp only
  rw [setCell_other _ _ _ fun he => hj (congrArg Fin.val he)]

/-! ## The search with addresses -/

variable {L : Loader} {key : Key}

/-- At the address there is a leaf with the record `old` in `t` and one with the record `new` in
`t'`; at every other address there is the same in both. -/
structure Replaced (t : Tree H) (address : List Nat) (old new : Record) (t' : Tree H) : Prop where
  entry_eq : t.entryAt address = some (.leaf old)
  entryAt_eq : ∀ a, t'.entryAt a = if a = address then some (.leaf new) else t.entryAt a

theorem isEmpty_of_entry {t t' : Tree H} (h : t.entry = t'.entry) : t.isEmpty = t'.isEmpty := by
  cases t <;> cases t' <;> first | rfl | exact absurd h nofun

/-- A slot is in use afterwards if it was before. -/
theorem Replaced.isEmpty_eq {t t' : Tree H} {address : List Nat} {old new : Record}
    (h : Replaced t address old new t') : t'.isEmpty = t.isEmpty := by
  have hroot := h.entryAt_eq []
  by_cases haddress : [] = address
  · -- The leaf is in the slot itself.
    have hold := h.entry_eq
    rw [if_pos haddress, entryAt_nil] at hroot
    rw [← haddress, entryAt_nil] at hold
    have hnew : t'.entry = (Tree.leaf new).entry := Option.some.inj hroot
    have hold : t.entry = (Tree.leaf old).entry := Option.some.inj hold
    rw [isEmpty_of_entry hnew, isEmpty_of_entry hold]
    rfl
  · rw [if_neg haddress, entryAt_nil, entryAt_nil] at hroot
    exact isEmpty_of_entry (Option.some.inj hroot)

/-- A replacement below a child is one below the node. -/
theorem Replaced.below {n : Node H} {i : Fin (NodeHeader.width n.header)} {t' : Tree H}
    {address : List Nat} {old new : Record} (h : Replaced (n.child i) address old new t') :
    Replaced n.toTree (i.val :: address) old new (n.setChild i t').toTree := by
  refine ⟨(entryAt_child n i address).trans h.entry_eq, ?_⟩
  intro a
  cases a with
  | nil =>
      have hoccupied : (fun j => !(setCell n.child i t' j).isEmpty) =
          fun j => !(n.child j).isEmpty := by
        funext j
        by_cases hj : j = i
        · rw [hj, setCell_same, h.isEmpty_eq]
        · rw [setCell_other _ _ _ hj]
      rw [if_neg nofun, entryAt_nil, entryAt_nil, Node.setChild_eq, Node.toTree, Node.toTree,
        entry, entry, Node.slots, Node.slots, hoccupied]
  | cons j rest =>
      by_cases hj : j = i.val
      · rw [hj, entryAt_setChild, entryAt_child, h.entryAt_eq]
        simp only [List.cons.injEq, true_and]
      · rw [entryAt_setChild_other n i t' hj, if_neg fun he => hj (List.cons.inj he).1]

/-! ## One way down -/

end Tree

namespace Dynamic.Tree

variable {L : Loader} {key : Key} {record : Record}

end Dynamic.Tree

/-! ## Whole trees -/

namespace DynamicTree

variable {t : DynamicTree} {L : Loader} {key : Key} {found : Option Record}

end DynamicTree

end RadixIndex
