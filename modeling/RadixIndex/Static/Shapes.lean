/-
# Static nodes, shape by shape

The functions of this module go by the shape of a node.  Where there are key bytes, a byte
is searched among them by halving, and a key is looked up in this way node by node.  A full
node is asked for the slot of the byte, and gone through from there on for the next slot that
holds something; it is taken apart slot by slot, each child being put after those before it.
-/
import RadixIndex.Static.Basic

namespace RadixIndex

/-! ## Searching by halving -/

/-- The place of `byte` among the bytes from the place `low` up to `high`, which have to
ascend, and whether it is there; if it is not, the place where it would be put in. -/
def Key.bisect (keys : Key) (byte : UInt8) (low high : Nat) : Nat × Bool :=
  if low < high then
    let middle := (low + high) / 2
    match keys[middle]? with
    | none => (low, false)
    | some b =>
        if b = byte then (middle, true)
        else if b < byte then bisect keys byte (middle + 1) high
        else bisect keys byte low middle
  else (low, false)
termination_by high - low

namespace Static

namespace Node

/-- The key bytes of a node; a full node does without. -/
def sortedKeys? (n : Node) : Option Key :=
  match n.header with
  | .dense keys | .denseStem _ keys | .loose _ keys => some keys
  | .full _ | .fullStem .. => none

/-- The child that a byte leads to. -/
def search (n : Node) (byte : UInt8) : Option Tree :=
  match sortedKeys? n with
  | some keys =>
      let (place, found) := keys.bisect byte 0 keys.length
      if found then (NodeHeader.slotAt n.header place).map n.child else none
  | none =>
      ((NodeHeader.slotAt n.header byte.toNat).map n.child).filter fun t => !t.isEmpty

/-- The slot of the child that a byte leads to. -/
def searchSlot (n : Node) (byte : UInt8) : Option (Fin (NodeHeader.width n.header)) :=
  match sortedKeys? n with
  | some keys =>
      let (place, found) := keys.bisect byte 0 keys.length
      if found then NodeHeader.slotAt n.header place else none
  | none => (NodeHeader.slotAt n.header byte.toNat).filter fun i => !(n.child i).isEmpty

/-- The position of the first child whose byte is not smaller, and whether that byte is
`byte` itself. -/
def searchFrom (n : Node) (byte : UInt8) : Option (Nat × Bool) :=
  match sortedKeys? n with
  | some keys =>
      let (place, found) := keys.bisect byte 0 keys.length
      if place < keys.length then some (place, found) else none
  | none => (n.positionFrom byte.toNat).map fun p => (p, p == byte.toNat)

end Node

/-- The record found from a tree that `depth` bytes of `key` have led to, when every node is
searched by its shape. -/
def Tree.searchFor (L : Loader) (key : Key) : Tree → (depth : Nat) → Option Record
  | .empty, _ => none
  | .leaf r, depth => if L.matchesFrom r key depth then some r else none
  | .node h c, depth =>
      if Key.continuesWith key depth h.stem then
        let depth := depth + h.stem.length
        match key[depth]? with
        | none => none
        | some byte =>
            match Node.searchSlot ⟨h, c⟩ byte with
            | none => none
            | some i => searchFor L key (c i) (depth + 1)
      else none

/-! ## Taking nodes apart -/

namespace Loose

/-- One more child, whose byte has to come after all others. -/
def push (l : Loose) (byte : UInt8) (t : Tree) : Except Fault Loose :=
  if l.keys.getLast?.all fun last => decide (last < byte) then
    .ok ⟨l.stem, l.entries ++ [(byte, t)]⟩
  else .error .order

/-- The loose form of a node. -/
def unpack (n : Node) : Except Fault Loose :=
  if n.header.isFull then
    n.children.foldlM (fun l e => l.push e.1 e.2) ⟨n.stemBytes, []⟩
  else .ok (ofNode n)

end Loose

end Static

end RadixIndex
