/-
# Radix trees

A radix tree is nothing, a leaf that holds a record, or an inner node.  An inner
node is a *header* and the children in its slots.  What a header looks like is
left open: `NodeHeader` lists what the rest of the library asks of one, and the
two families of trees (`RadixIndex.Dynamic`, `RadixIndex.Static`) supply their
own.  The number of slots comes from the header, so a node cannot have more
children than its header can name.

The one view of a node that everything else speaks through is `Node.children`:
its children with the bytes that lead to them, in ascending order of the bytes.
-/
import RadixIndex.Key
import RadixIndex.Tree.Slots

namespace RadixIndex

/-- How many bytes of a stem a dynamic node keeps at most; the shape report
counts longer stems together. -/
def inlineCapacity : Nat := 9

/-- What an inner node says about itself.

The bytes that all keys below a node share from its offset on are its *stem*.
The functions that look for children are told which slots hold something. -/
class NodeHeader (H : Type) where
  /-- The number of slots for children. -/
  width : H → Nat
  /-- The number of children, as the header has it. -/
  count : H → Nat
  /-- The length of the stem. -/
  stemLength : H → Nat
  /-- The bytes of the stem that the header keeps: all of it, or a beginning. -/
  stemBytes : H → Key
  /-- The estimated size in memory, children not included. -/
  footprint : H → Nat
  /-- Whether positions in the node are bytes; otherwise they count the slots. -/
  byByte : H → Bool
  /-- The slots in use with the bytes that lead to them, in the order of the node. -/
  slots : (h : H) → (Fin (width h) → Bool) → List (UInt8 × Fin (width h))
  /-- The slot that a byte leads to. -/
  find : (h : H) → (Fin (width h) → Bool) → UInt8 → Option (Fin (width h))
  /-- The byte at a position, which need not be in use. -/
  byteAt : H → Nat → Option UInt8
  /-- The slot at a position, which need not be in use. -/
  slotAt : (h : H) → Nat → Option (Fin (width h))

/-- A radix tree. -/
inductive Tree (H : Type) [NodeHeader H] where
  /-- Nothing. -/
  | empty
  /-- A record. -/
  | leaf (record : Record)
  /-- An inner node: its header and what is in its slots. -/
  | node (header : H) (child : Fin (NodeHeader.width header) → Tree H)

/-- An inner node on its own. -/
structure Node (H : Type) [NodeHeader H] where
  header : H
  child : Fin (NodeHeader.width header) → Tree H

variable {H : Type} [NodeHeader H]

namespace Tree

instance : Inhabited (Tree H) := ⟨.empty⟩

/-- Whether there is nothing here. -/
def isEmpty : Tree H → Bool
  | .empty => true
  | _ => false

/-- Whether this is a leaf. -/
def isLeaf : Tree H → Bool
  | .leaf _ => true
  | _ => false

/-- The record of a leaf. -/
def record? : Tree H → Option Record
  | .leaf r => some r
  | _ => none

/-- The inner node that this is. -/
def node? : Tree H → Option (Node H)
  | .node h c => some ⟨h, c⟩
  | _ => none

end Tree

namespace Node

/-- A node as a tree. -/
def toTree (n : Node H) : Tree H := .node n.header n.child

/-- The slot contents that `cells` lists. -/
@[noinline]
def cellsOf {n : Nat} {α : Type} (cells : Vector α n) : Fin n → α := fun i => cells[i]

/-- The node with the given header and slot contents.  The contents are worked
out once, when the node is built, and kept. -/
def build (h : H) (child : Fin (NodeHeader.width h) → Tree H) : Node H :=
  ⟨h, cellsOf (Vector.ofFn child)⟩

@[simp]
theorem build_eq (h : H) (child : Fin (NodeHeader.width h) → Tree H) :
    build h child = ⟨h, child⟩ := by
  simp [build, cellsOf, funext_iff]

/-- The slots in use with the bytes that lead to them. -/
def slots (n : Node H) : List (UInt8 × Fin (NodeHeader.width n.header)) :=
  NodeHeader.slots n.header fun i => !(n.child i).isEmpty

/-- The children with the bytes that lead to them. -/
def children (n : Node H) : List (UInt8 × Tree H) :=
  n.slots.map fun s => (s.1, n.child s.2)

/-- The slot that a byte leads to. -/
def find (n : Node H) (byte : UInt8) : Option (Fin (NodeHeader.width n.header)) :=
  NodeHeader.find n.header (fun i => !(n.child i).isEmpty) byte

/-- The child that a byte leads to. -/
def child? (n : Node H) (byte : UInt8) : Option (Tree H) :=
  (n.find byte).map n.child

/-- The node with another child in a slot. -/
def setChild (n : Node H) (i : Fin (NodeHeader.width n.header)) (t : Tree H) : Node H :=
  build n.header (setCell n.child i t)

/-- None of the children is a leaf. -/
def isInner (n : Node H) : Bool :=
  n.children.all fun c => !c.2.isLeaf

/-- The number of children, as the header has it. -/
def count (n : Node H) : Nat := NodeHeader.count n.header

/-- The length of the stem. -/
def stemLength (n : Node H) : Nat := NodeHeader.stemLength n.header

/-- The bytes of the stem that the node keeps. -/
def stemBytes (n : Node H) : Key := NodeHeader.stemBytes n.header

/-! ## Positions

A position names a place in a node from outside: the byte that leads there in a
node that is addressed by bytes, the number of the slot in one that is not. -/

/-- The position of a slot in use. -/
def position (n : Node H) (s : UInt8 × Fin (NodeHeader.width n.header)) : Nat :=
  if NodeHeader.byByte n.header then s.1.toNat else s.2.val

/-- The first position in use that is not before `start`. -/
def positionFrom (n : Node H) (start : Nat) : Option Nat :=
  (n.slots.map n.position).find? fun p => decide (start ≤ p)

/-- The position of the first child whose byte is not smaller than `byte`, and
whether that byte is `byte` itself. -/
def seek (n : Node H) (byte : UInt8) : Option (Nat × Bool) :=
  (n.slots.find? fun s => decide (byte ≤ s.1)).map fun s => (n.position s, s.1 == byte)

/-- The byte at a position. -/
def byteAt (n : Node H) (position : Nat) : Except Fault UInt8 :=
  match NodeHeader.byteAt n.header position with
  | some b => .ok b
  | none => .error .range

/-- What is in the slot at a position. -/
def childAt (n : Node H) (position : Nat) : Except Fault (Tree H) :=
  match NodeHeader.slotAt n.header position with
  | some i => .ok (n.child i)
  | none => .error .range

end Node

/-! ## What a tree holds -/

namespace Tree

/-- The record of the smallest leaf. -/
def least? : Tree H → Option Record
  | .empty => none
  | .leaf r => some r
  | .node h c =>
      match NodeHeader.slots h fun i => !(c i).isEmpty with
      | [] => none
      | (_, i) :: _ => (c i).least?

/-- The number of leaves. -/
def leafCount : Tree H → Nat
  | .empty => 0
  | .leaf _ => 1
  | .node h c =>
      -- The zero is named: which one is found depends on what is imported.
      @List.sum Nat _ Zero.ofOfNat0
        ((NodeHeader.slots h fun i => !(c i).isEmpty).map fun s => (c s.2).leafCount)

/-- The inner nodes, each before the nodes below it. -/
def nodes : Tree H → List (Node H)
  | .empty => []
  | .leaf _ => []
  | .node h c =>
      ⟨h, c⟩ ::
        (NodeHeader.slots h fun i => !(c i).isEmpty).flatMap fun s => (c s.2).nodes

end Tree

end RadixIndex
