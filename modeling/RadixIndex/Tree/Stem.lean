/-
# Stems

A node may keep only the beginning of its stem.  The rest of a long stem stands
in the key of any leaf below the node, so it is read from the key of the
smallest one.  The three functions of this module compare a key with a stem, or
spell the stem out; all of them stop at the bytes that the node keeps when these
settle the matter or when there is no leaf to ask.
-/
import RadixIndex.Key.Loader
import RadixIndex.Tree

namespace RadixIndex.Node

variable {H : Type} [NodeHeader H]

/-- The record to ask for the part of the stem that the node does not keep. -/
def witness? (n : Node H) : Option Record :=
  if n.stemLength ≤ n.stemBytes.length then none else n.toTree.least?

/-- The whole stem of a node whose keys have `keyLength` bytes, when the stem
begins at the offset `depth`. -/
def fullStem (n : Node H) (L : Loader) (depth keyLength : Nat) : Except Fault Key :=
  match n.witness? with
  | none => .ok n.stemBytes
  | some r => Key.slice (L.load r keyLength) depth (depth + n.stemLength)

/-- How many bytes of the stem `key` follows from the offset `depth` on; the
length of the stem if it follows all of it. -/
def stemMatch (n : Node H) (L : Loader) (key : Key) (depth : Nat) : Except Fault Nat := do
  let kept := n.stemBytes.length
  let matched := Key.commonLength n.stemBytes (← Key.suffix key depth)
  if matched < kept then
    return matched
  match n.witness? with
  | none => return matched
  | some r =>
      let stem ← Key.slice (L.load r key.length) (depth + kept) (depth + n.stemLength)
      return kept + Key.commonLength stem (← Key.suffix key (depth + kept))

/-- How the bytes of `key` from the offset `depth` on compare with the stem. -/
def compareStem (n : Node H) (L : Loader) (key : Key) (depth : Nat) :
    Except Fault Ordering := do
  let kept := n.stemBytes.length
  let order := compare (← Key.slice key depth (depth + kept)) n.stemBytes
  if order != .eq then
    return order
  match n.witness? with
  | none => return order
  | some r =>
      let part ← Key.slice key (depth + kept) (depth + n.stemLength)
      return compare part
        (← Key.slice (L.load r key.length) (depth + kept) (depth + n.stemLength))

end RadixIndex.Node
