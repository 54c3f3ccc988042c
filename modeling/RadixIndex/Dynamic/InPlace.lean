/-
# Writing in place

The writes of `RadixIndex.Dynamic.Write` answer `none` when they change nothing, and what
they are given is then kept.  A write in place has no such way out.  It goes down into the
slots of the tree, and whatever comes of it, each slot on the way gets what came back from
below, the counts are those that were handed along, and a flag says whether a record was
stored, replaced or removed.

Offsets are guarded where a key of any length may be written about, which is when a record
is replaced.
-/
import RadixIndex.Dynamic.Basic
import RadixIndex.Tree.Guarded

namespace RadixIndex

namespace Dynamic.Tree

/-- Puts `record` under `key` into a slot that `depth` bytes of `key` have led to, unless the
key is there already. -/
def insertInPlace (L : Loader) (key : Key) (record : Record) :
    Tree → (depth : Nat) → Stats → Except Fault (Bool × Tree × Stats)
  | .empty, _, s => .ok (true, .leaf record, s)
  | .leaf existing, depth, s => do
      let existingKey := L.load existing key.length
      let common := Key.commonLength (existingKey.drop depth) (← Key.suffix key depth)
      if key.length ≤ depth + common then
        return (false, .leaf existing, s)
      let (n, s) ← Node.splitLeaf existing record existingKey key depth common s
      return (true, n.toTree, s)
  | .node h c, depth, s => do
      let n : Node := ⟨h, c⟩
      let mismatch ← n.stemMatch L key depth
      if mismatch < h.stem.length then
        let (n, s) ← Node.splitStem L n key depth mismatch record s
        return (true, n.toTree, s)
      let depth := depth + h.stem.length
      let byte ← Key.byteAt key depth
      match NodeHeader.find h (fun i => !(c i).isEmpty) byte with
      | some i =>
          let (inserted, t, s) ← insertInPlace L key record (c i) (depth + 1) s
          return (inserted, (n.setChild i t).toTree, s)
      | none =>
          let (n, s) ← Node.addChild n byte (.leaf record) s
          return (true, n.toTree, s)

/-- Puts `record` in the place of the record under `key`, if there is one, in a slot that
`depth` bytes of `key` have led to, some of them unseen if `skipped`. -/
def updateInPlace (L : Loader) (key : Key) (record : Record) :
    Tree → (depth : Nat) → (skipped : Bool) → Except Fault (Bool × Tree)
  | .empty, _, _ => .ok (false, .empty)
  | .leaf existing, depth, skipped => do
      if ← L.matchesGuarded existing key (if skipped then 0 else depth) then
        return (true, .leaf record)
      else
        return (false, .leaf existing)
  | .node h c, depth, skipped => do
      let n : Node := ⟨h, c⟩
      let stop ← Key.advance depth n.stemLength
      if n.admits key depth then
        match key[stop]? with
        | none => return (false, n.toTree)
        | some byte =>
            match NodeHeader.find h (fun i => !(c i).isEmpty) byte with
            | none => return (false, n.toTree)
            | some i =>
                let (updated, t) ← updateInPlace L key record (c i) (← Key.advance stop 1)
                  (skipped || n.cutsStem)
                return (updated, (n.setChild i t).toTree)
      else
        return (false, n.toTree)

/-- Takes the record under `key` out of a slot that `depth` bytes of `key` have led to, if
there is such a record. -/
def eraseInPlace (L : Loader) (key : Key) :
    Tree → (depth : Nat) → Stats → Except Fault (Bool × Tree × Stats)
  | .empty, _, s => .ok (false, .empty, s)
  | .leaf r, depth, s =>
      .ok (if L.matchesFrom r key depth then (true, .empty, s) else (false, .leaf r, s))
  | .node h c, depth, s => do
      let n : Node := ⟨h, c⟩
      if (← n.stemMatch L key depth) ≠ h.stem.length then
        return (false, n.toTree, s)
      let depth := depth + h.stem.length
      let byte ← Key.byteAt key depth
      match NodeHeader.find h (fun i => !(c i).isEmpty) byte with
      | none => return (false, n.toTree, s)
      | some i =>
          if ((c i).record?.any fun r => L.matchesFrom r key (depth + 1)) then
            let (_, n, s) ← Node.removeChild n byte s
            let (t, s) ← Node.settle n s
            return (true, t, s)
          else
            let (erased, t, s) ← eraseInPlace L key (c i) (depth + 1) s
            return (erased, (n.setChild i t).toTree, s)

end Dynamic.Tree

namespace DynamicTree

/-- Stores `record` under `key` in place, unless the key is there already. -/
def insertInPlace (t : DynamicTree) (L : Loader) (key : Key) (record : Record) :
    Except Fault (Bool × DynamicTree) := do
  if key.length ≠ t.keyLength then
    throw .keyLength
  let (inserted, root, stats) ← t.root.insertInPlace L key record 0 t.stats
  return (inserted, ⟨root, t.keyLength, if inserted then t.size + 1 else t.size, stats⟩)

/-- Puts `record` in the place of the record under `key`, in place. -/
def updateInPlace (t : DynamicTree) (L : Loader) (key : Key) (record : Record) :
    Except Fault (Bool × DynamicTree) := do
  let (updated, root) ← t.root.updateInPlace L key record 0 false
  return (updated, ⟨root, t.keyLength, t.size, t.stats⟩)

/-- Removes the record under `key` in place. -/
def eraseInPlace (t : DynamicTree) (L : Loader) (key : Key) :
    Except Fault (Bool × DynamicTree) := do
  if key.length ≠ t.keyLength then
    throw .keyLength
  let (erased, root, stats) ← t.root.eraseInPlace L key 0 t.stats
  if erased ∧ t.size = 0 then
    throw .underflow
  return (erased, ⟨root, t.keyLength, if erased then t.size - 1 else t.size, stats⟩)

/-- Stores `record` under `key` in place, whether or not there is a record there. -/
def upsertInPlace (t : DynamicTree) (L : Loader) (key : Key) (record : Record) :
    Except Fault DynamicTree := do
  let (updated, t) ← t.updateInPlace L key record
  if updated then
    return t
  else
    return (← t.insertInPlace L key record).2

end DynamicTree

end RadixIndex
