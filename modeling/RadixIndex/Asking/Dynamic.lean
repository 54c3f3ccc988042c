/-
# Dynamic trees, with their questions

Looking up, writing and freezing, as in `RadixIndex.Dynamic` and `RadixIndex.Static.Freeze`.

A leaf that stands in the way of a new key is asked about, and one that may hold the key that is
looked for.  The record that is to be stored is not asked about.
-/
import RadixIndex.Asking.Tree
import RadixIndex.Static.Freeze

namespace RadixIndex.Dynamic.Asking

open RadixIndex.Asking (load matchesFrom fullStem stemMatch)

/-! ## Looking up -/

/-- The record found from a tree that `depth` bytes of `key` have led to, some of them unseen if
`skipped`. -/
def getFrom (key : Key) : Tree → (depth : Nat) → (skipped : Bool) → Asking (Option Record)
  | .empty, _, _ => return none
  | .leaf r, depth, skipped => do
      if ← matchesFrom r key (if skipped then 0 else depth) then
        return some r
      return none
  | .node h c, depth, skipped =>
      if h.admits key depth then
        let depth := depth + h.stem.length
        match key[depth]? with
        | none => return none
        | some byte =>
            match NodeHeader.find h (fun i => !(c i).isEmpty) byte with
            | none => return none
            | some i => getFrom key (c i) (depth + 1) (skipped || h.skips)
      else return none

/-- The record found from a tree that `depth` bytes of `key` have led to, all of them
compared. -/
def getCheckedFrom (key : Key) : Tree → (depth : Nat) → Asking (Option Record)
  | .empty, _ => return none
  | .leaf r, depth => do
      if ← matchesFrom r key depth then
        return some r
      return none
  | .node h c, depth => do
      if key.length < depth + h.stem.length then
        return none
      if (← stemMatch (Node.mk h c) key depth) ≠ h.stem.length then
        return none
      let depth := depth + h.stem.length
      match key[depth]? with
      | none => return none
      | some byte =>
          match NodeHeader.find h (fun i => !(c i).isEmpty) byte with
          | none => return none
          | some i => getCheckedFrom key (c i) (depth + 1)

/-! ## Writing -/

/-- The tree with `record` in the place of the record found, if one is found. -/
def updateFrom (key : Key) (record : Record) :
    Tree → (depth : Nat) → (skipped : Bool) → Asking (Option Tree)
  | .empty, _, _ => return none
  | .leaf r, depth, skipped => do
      if ← matchesFrom r key (if skipped then 0 else depth) then
        return some (.leaf record)
      return none
  | .node h c, depth, skipped =>
      if h.admits key depth then
        let depth := depth + h.stem.length
        match key[depth]? with
        | none => return none
        | some byte =>
            match NodeHeader.find h (fun i => !(c i).isEmpty) byte with
            | none => return none
            | some i => do
                return (← updateFrom key record (c i) (depth + 1) (skipped || h.skips)).map
                  fun t => ((Node.mk h c).setChild i t).toTree
      else return none

/-- A new node in the place of `n`, with the first `mismatch` bytes of its stem: below it `n`
with the rest of its stem, and a leaf under the byte with which `key` leaves the stem. -/
def splitStem (n : Node) (key : Key) (depth mismatch : Nat) (record : Record) (s : Stats) :
    Asking (Node × Stats) := do
  let parent := Node.new (n.header.stem.take mismatch)
  let stem ← fullStem n depth key.length
  let branch ← Key.byteAt stem mismatch
  let rest ← Stem.make (n.stemLength - mismatch - 1) (stem.drop (mismatch + 1))
  let (parent, s) ←
    Node.addChild parent branch (Node.withStem n rest).toTree (s.alloc .four)
  Node.addChild parent (← Key.byteAt key (depth + mismatch)) (.leaf record) s

/-- The tree with `record` under `key`, when `depth` bytes of `key` have led to the tree; `none`
if the key is there already. -/
def insertFrom (key : Key) (record : Record) :
    Tree → (depth : Nat) → Stats → Asking (Option (Tree × Stats))
  | .empty, _, s => return some (.leaf record, s)
  | .leaf existing, depth, s => do
      let existingKey ← load existing key.length
      let common := Key.commonLength (existingKey.drop depth) (← Key.suffix key depth)
      if key.length ≤ depth + common then
        return none
      let (n, s) ← Node.splitLeaf existing record existingKey key depth common s
      return some (n.toTree, s)
  | .node h c, depth, s => do
      let n : Node := ⟨h, c⟩
      let mismatch ← stemMatch n key depth
      if mismatch < h.stem.length then
        let (n, s) ← splitStem n key depth mismatch record s
        return some (n.toTree, s)
      let depth := depth + h.stem.length
      let byte ← Key.byteAt key depth
      match NodeHeader.find h (fun i => !(c i).isEmpty) byte with
      | some i =>
          return (← insertFrom key record (c i) (depth + 1) s).map fun (t, s) =>
            ((n.setChild i t).toTree, s)
      | none =>
          let (n, s) ← Node.addChild n byte (.leaf record) s
          return some (n.toTree, s)

/-- Whether this is a leaf that holds `key`, when the first `depth` bytes of `key` are already
known to agree. -/
def leafHolds (key : Key) : Tree → (depth : Nat) → Asking Bool
  | .leaf r, depth => matchesFrom r key depth
  | _, _ => return false

/-- The tree without the record under `key`, when `depth` bytes of `key` have led to the tree;
`none` if there is no such record. -/
def eraseFrom (key : Key) : Tree → (depth : Nat) → Stats → Asking (Option (Tree × Stats))
  | .empty, _, _ => return none
  | .leaf r, depth, s => do
      if ← matchesFrom r key depth then
        return some (.empty, s)
      return none
  | .node h c, depth, s => do
      let n : Node := ⟨h, c⟩
      if (← stemMatch n key depth) ≠ h.stem.length then
        return none
      let depth := depth + h.stem.length
      let byte ← Key.byteAt key depth
      match NodeHeader.find h (fun i => !(c i).isEmpty) byte with
      | none => return none
      | some i =>
          if ← leafHolds key (c i) (depth + 1) then
            let (_, n, s) ← Node.removeChild n byte s
            return some (← Node.settle n s)
          else
            return (← eraseFrom key (c i) (depth + 1) s).map fun (t, s) =>
              ((n.setChild i t).toTree, s)

/-! ## Whole trees -/

/-- The record under a key. -/
def get (t : DynamicTree) (key : Key) : Asking (Option Record) := getFrom key t.root 0 false

/-- The record under a key, found with every byte of the key checked. -/
def getChecked (t : DynamicTree) (key : Key) : Asking (Option Record) :=
  getCheckedFrom key t.root 0

/-- Puts `record` in the place of the record under `key`, if there is one, and says whether there
was. -/
def update (t : DynamicTree) (key : Key) (record : Record) : Asking (Bool × DynamicTree) := do
  match ← updateFrom key record t.root 0 false with
  | none => return (false, t)
  | some root => return (true, { t with root })

/-- Stores `record` under `key` unless the key is there already, and says whether it did. -/
def insert (t : DynamicTree) (key : Key) (record : Record) : Asking (Bool × DynamicTree) := do
  if key.length ≠ t.keyLength then
    .stop .keyLength
  match ← insertFrom key record t.root 0 t.stats with
  | none => return (false, t)
  | some (root, stats) => return (true, { t with root, stats, size := t.size + 1 })

/-- Stores `record` under `key`, in the place of the record there if there is one. -/
def upsert (t : DynamicTree) (key : Key) (record : Record) : Asking DynamicTree := do
  match ← update t key record with
  | (true, t) => return t
  | (false, t) => return (← insert t key record).2

/-- Removes the record under `key` if there is one, and says whether there was. -/
def erase (t : DynamicTree) (key : Key) : Asking (Bool × DynamicTree) := do
  if key.length ≠ t.keyLength then
    .stop .keyLength
  match ← eraseFrom key t.root 0 t.stats with
  | none => return (false, t)
  | some (root, stats) =>
      if t.size = 0 then
        .stop .underflow
      return (true, { t with root, stats, size := t.size - 1 })

/-! ## Freezing -/

/-- The static tree that a dynamic tree at the offset `depth` becomes. -/
def freezeFrom (keyLength : Nat) (p : Static.ShapePolicy) : Tree → (depth : Nat) →
    Asking Static.Tree
  | .empty, _ => return .empty
  | .leaf r, _ => return .leaf r
  | .node h c, depth => do
      let n : Node := ⟨h, c⟩
      let stem ← fullStem n depth keyLength
      let entries ← (Node.emptying n.slots []).mapM fun s => do
        match s.2 with
        | none => return (s.1, RadixIndex.Tree.empty)
        | some i => return (s.1, ← freezeFrom keyLength p (c i) (depth + stem.length + 1))
      return ((← Static.Loose.make stem entries).pack p).toTree

/-- The static tree with the records of `t`, and the dynamic tree without them. -/
def freeze (t : DynamicTree) (p : Static.ShapePolicy) : Asking (StaticTree × DynamicTree) := do
  let root ← freezeFrom t.keyLength p t.root 0
  return (.ofRoot root t.keyLength t.size, .empty t.keyLength)

end RadixIndex.Dynamic.Asking
