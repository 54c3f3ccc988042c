/-
# Looking up a key in a dynamic tree

There are two ways down.  The *optimistic* one passes over the stems that a node
does not keep whole and makes up for it by comparing the whole key at the leaf.
The *pessimistic* one checks every byte of every stem on the way.  Putting another
record in the place of one that is there goes the optimistic way.
-/
import RadixIndex.Tree.Stem
import RadixIndex.Dynamic.Node

namespace RadixIndex.Dynamic

namespace Header

/-- A key that has come to a node at the offset `depth` may go on to its
children, as far as the bytes tell that the node keeps.  A stem that is not kept
whole is passed over. -/
def admits (h : Header) (key : Key) (depth : Nat) : Bool :=
  decide (inlineCapacity < h.stem.length) || Key.continuesWith key depth h.stem.inline

/-- Whether the stem is passed over. -/
def skips (h : Header) : Bool := decide (inlineCapacity < h.stem.length)

end Header

namespace Tree

/-- The record found from a tree that `depth` bytes of `key` have led to, some
of them unseen if `skipped`. -/
def getFrom (L : Loader) (key : Key) : Tree → (depth : Nat) → (skipped : Bool) → Option Record
  | .empty, _, _ => none
  | .leaf r, depth, skipped =>
      if L.matchesFrom r key (if skipped then 0 else depth) then some r else none
  | .node h c, depth, skipped =>
      if h.admits key depth then
        let depth := depth + h.stem.length
        match key[depth]? with
        | none => none
        | some byte =>
            match NodeHeader.find h (fun i => !(c i).isEmpty) byte with
            | none => none
            | some i => getFrom L key (c i) (depth + 1) (skipped || h.skips)
      else none

/-- The record found from a tree that `depth` bytes of `key` have led to, all of
them compared. -/
def getCheckedFrom (L : Loader) (key : Key) :
    Tree → (depth : Nat) → Except Fault (Option Record)
  | .empty, _ => .ok none
  | .leaf r, depth => .ok (if L.matchesFrom r key depth then some r else none)
  | .node h c, depth => do
      if key.length < depth + h.stem.length then
        return none
      if (← (Node.mk h c).stemMatch L key depth) ≠ h.stem.length then
        return none
      let depth := depth + h.stem.length
      match key[depth]? with
      | none => return none
      | some byte =>
          match NodeHeader.find h (fun i => !(c i).isEmpty) byte with
          | none => return none
          | some i => getCheckedFrom L key (c i) (depth + 1)

/-- The tree with `record` in the place of the record found, if one is found. -/
def updateFrom (L : Loader) (key : Key) (record : Record) :
    Tree → (depth : Nat) → (skipped : Bool) → Option Tree
  | .empty, _, _ => none
  | .leaf r, depth, skipped =>
      if L.matchesFrom r key (if skipped then 0 else depth) then some (.leaf record) else none
  | .node h c, depth, skipped =>
      if h.admits key depth then
        let depth := depth + h.stem.length
        match key[depth]? with
        | none => none
        | some byte =>
            match NodeHeader.find h (fun i => !(c i).isEmpty) byte with
            | none => none
            | some i =>
                (updateFrom L key record (c i) (depth + 1) (skipped || h.skips)).map fun t =>
                  ((Node.mk h c).setChild i t).toTree
      else none

end Tree

end RadixIndex.Dynamic
