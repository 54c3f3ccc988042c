/-
# Inserting and erasing

Inserting a key that is not there makes one of three changes: a leaf becomes a
node with two leaves, a node whose stem the key leaves is put below a new node,
or a node gets one more leaf.  Erasing takes a leaf out of its node; a node that
is left with one child gives its place to that child, which takes over its stem.

`insertFrom` and `eraseFrom` answer `none` when they change nothing.
-/
import RadixIndex.Dynamic.Lookup

namespace RadixIndex.Dynamic

namespace Node

/-- A new node in the place of a leaf: the leaf and a new one below it, told
apart by the first byte after the common part of their keys from `depth` on. -/
def splitLeaf (existing record : Record) (existingKey key : Key) (depth common : Nat)
    (s : Stats) : Except Fault (Node × Stats) := do
  let parent := new (← Stem.make common (key.drop depth))
  let (parent, s) ←
    addChild parent (← Key.byteAt existingKey (depth + common)) (.leaf existing) (s.alloc .four)
  addChild parent (← Key.byteAt key (depth + common)) (.leaf record) s

/-- A new node in the place of `n`, with the first `mismatch` bytes of its stem:
below it `n` with the rest of its stem, and a leaf under the byte with which
`key` leaves the stem. -/
def splitStem (L : Loader) (n : Node) (key : Key) (depth mismatch : Nat) (record : Record)
    (s : Stats) : Except Fault (Node × Stats) := do
  let parent := new (n.header.stem.take mismatch)
  let stem ← n.fullStem L depth key.length
  let branch ← Key.byteAt stem mismatch
  let rest ← Stem.make (n.stemLength - mismatch - 1) (stem.drop (mismatch + 1))
  let (parent, s) ← addChild parent branch (withStem n rest).toTree (s.alloc .four)
  addChild parent (← Key.byteAt key (depth + mismatch)) (.leaf record) s

/-- The first child of a node in the place of the node, with the stem of the
node, the byte that led to it and its own stem as its stem. -/
def collapse : Node → Except Fault Tree
  | ⟨⟨stem, .four keys _⟩, child⟩ =>
      match child (0 : Fin 4) with
      | .node h c => .ok (.node ⟨stem.join keys[0] h.stem, h.layout⟩ c)
      | t => .ok t
  | _ => .error .capacity

/-- A node after a child has been removed from it, as a tree: a node of four
that is left with one child gives way to it. -/
def settle (n : Node) (s : Stats) : Except Fault (Tree × Stats) := do
  if size n = .four ∧ n.count = 1 then
    return (← collapse n, ← s.free .four)
  else
    return (n.toTree, s)

end Node

namespace Tree

/-- The tree with `record` under `key`, when `depth` bytes of `key` have led to
the tree; `none` if the key is there already. -/
def insertFrom (L : Loader) (key : Key) (record : Record) :
    Tree → (depth : Nat) → Stats → Except Fault (Option (Tree × Stats))
  | .empty, _, s => .ok (some (.leaf record, s))
  | .leaf existing, depth, s => do
      let existingKey := L.load existing key.length
      let common := Key.commonLength (existingKey.drop depth) (← Key.suffix key depth)
      if key.length ≤ depth + common then
        return none
      let (n, s) ← Node.splitLeaf existing record existingKey key depth common s
      return some (n.toTree, s)
  | .node h c, depth, s => do
      let n : Node := ⟨h, c⟩
      let mismatch ← n.stemMatch L key depth
      if mismatch < h.stem.length then
        let (n, s) ← Node.splitStem L n key depth mismatch record s
        return some (n.toTree, s)
      let depth := depth + h.stem.length
      let byte ← Key.byteAt key depth
      match NodeHeader.find h (fun i => !(c i).isEmpty) byte with
      | some i =>
          return (← insertFrom L key record (c i) (depth + 1) s).map fun (t, s) =>
            ((n.setChild i t).toTree, s)
      | none =>
          let (n, s) ← Node.addChild n byte (.leaf record) s
          return some (n.toTree, s)

/-- The tree without the record under `key`, when `depth` bytes of `key` have led
to the tree; `none` if there is no such record. -/
def eraseFrom (L : Loader) (key : Key) :
    Tree → (depth : Nat) → Stats → Except Fault (Option (Tree × Stats))
  | .empty, _, _ => .ok none
  | .leaf r, depth, s => .ok (if L.matchesFrom r key depth then some (.empty, s) else none)
  | .node h c, depth, s => do
      let n : Node := ⟨h, c⟩
      if (← n.stemMatch L key depth) ≠ h.stem.length then
        return none
      let depth := depth + h.stem.length
      let byte ← Key.byteAt key depth
      match NodeHeader.find h (fun i => !(c i).isEmpty) byte with
      | none => return none
      | some i =>
          if ((c i).record?.any fun r => L.matchesFrom r key (depth + 1)) then
            let (_, n, s) ← Node.removeChild n byte s
            return some (← Node.settle n s)
          else
            return (← eraseFrom L key (c i) (depth + 1) s).map fun (t, s) =>
              ((n.setChild i t).toTree, s)

end Tree

end RadixIndex.Dynamic
