/-
# Stems and cursors, with their questions

What `RadixIndex.Tree.Stem` and `RadixIndex.Tree.Cursor` ask a loader.  A stem that a node keeps
whole needs no loader; the rest of a longer one is asked for only after the bytes that the node
keeps have been found to agree, and only if there is a leaf to ask about.  A cursor asks about
the leaf that it comes to, if it comes to one.
-/
import RadixIndex.Asking.Basic
import RadixIndex.Tree.Cursor

namespace RadixIndex.Asking

variable {H : Type} [NodeHeader H]

/-- Whether the leaf `r` holds `key`, when the first `depth` bytes of `key` are already known to
agree.  If these are all bytes of it, nothing is asked. -/
def matchesFrom (r : Record) (key : Key) (depth : Nat) : Asking Bool := do
  if key.length ≤ depth then
    return true
  return (← load r key.length).drop depth == key.drop depth

/-- The whole stem of a node whose keys have `keyLength` bytes, when the stem begins at the
offset `depth`. -/
def fullStem (n : Node H) (depth keyLength : Nat) : Asking Key := do
  match n.witness? with
  | none => return n.stemBytes
  | some r => Key.slice (← load r keyLength) depth (depth + n.stemLength)

/-- How many bytes of the stem `key` follows from the offset `depth` on; the length of the stem
if it follows all of it. -/
def stemMatch (n : Node H) (key : Key) (depth : Nat) : Asking Nat := do
  let kept := n.stemBytes.length
  let matched := Key.commonLength n.stemBytes (← Key.suffix key depth)
  if matched < kept then
    return matched
  match n.witness? with
  | none => return matched
  | some r =>
      let stem ← Key.slice (← load r key.length) (depth + kept) (depth + n.stemLength)
      return kept + Key.commonLength stem (← Key.suffix key (depth + kept))

/-- How the bytes of `key` from the offset `depth` on compare with the stem. -/
def compareStem (n : Node H) (key : Key) (depth : Nat) : Asking Ordering := do
  let kept := n.stemBytes.length
  let order := compare (← Key.slice key depth (depth + kept)) n.stemBytes
  if order != .eq then
    return order
  match n.witness? with
  | none => return order
  | some r =>
      let leafKey ← load r key.length
      let part ← Key.slice key (depth + kept) (depth + n.stemLength)
      return compare part (← Key.slice leafKey (depth + kept) (depth + n.stemLength))

/-- The search for the first leaf of a tree, or of `pending` after it, whose key is not smaller
than `key`, when `depth` bytes of `key` have led to the tree. -/
def seekFrom (key : Key) :
    Tree H → (depth : Nat) → (pending : List (Tree H)) → Asking (Cursor H)
  | .empty, _, pending => return ⟨none, pending⟩
  | .leaf r, _, pending => do
      if compare (← load r key.length) key == .lt then
        return Cursor.resume pending
      return ⟨some r, pending⟩
  | .node h c, depth, pending => do
      match ← compareStem (Node.mk h c) key depth with
      | .gt => return Cursor.resume pending
      | .lt => return Cursor.descend (.node h c) pending
      | .eq =>
          let depth := depth + NodeHeader.stemLength h
          match key[depth]? with
          | none => return Cursor.descend (.node h c) pending
          | some byte =>
              match (NodeHeader.slots h fun i => !(c i).isEmpty).dropWhile
                  fun s => decide (s.1 < byte) with
              | [] => return Cursor.resume pending
              | (b, i) :: rest =>
                  let pending := rest.map (fun s => c s.2) ++ pending
                  if b = byte then seekFrom key (c i) (depth + 1) pending
                  else return Cursor.descend (c i) pending

/-- On the first leaf whose key is not smaller than `key`. -/
def lowerBound (root : Tree H) (key : Key) : Asking (Cursor H) := seekFrom key root 0 []

end RadixIndex.Asking
