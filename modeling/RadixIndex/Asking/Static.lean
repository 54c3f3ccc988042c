/-
# Static trees, with their questions

Looking up and merging, as in `RadixIndex.Static`.  A merge asks about leaves only: about both
leaves that come to the same place, and about a leaf that comes to the place of a node, once for
every node that it goes down to.
-/
import RadixIndex.Asking.Tree
import RadixIndex.Static.Merge

namespace RadixIndex.Static.Asking

open RadixIndex.Asking (load matchesFrom)

/-! ## Looking up -/

/-- The record found from a tree that `depth` bytes of `key` have led to. -/
def getFrom (key : Key) : Tree → (depth : Nat) → Asking (Option Record)
  | .empty, _ => return none
  | .leaf r, depth => do
      if ← matchesFrom r key depth then
        return some r
      return none
  | .node h c, depth =>
      if Key.continuesWith key depth h.stem then
        let depth := depth + h.stem.length
        match key[depth]? with
        | none => return none
        | some byte =>
            match NodeHeader.find h (fun i => !(c i).isEmpty) byte with
            | none => return none
            | some i => getFrom key (c i) (depth + 1)
      else return none

/-- The record under a key. -/
def get (t : StaticTree) (key : Key) : Asking (Option Record) := getFrom key t.root 0

/-! ## Merging -/

/-- What a merge without a loader goes by. -/
structure Merging where
  /-- The length of all keys. -/
  keyLength : Nat
  policy : ShapePolicy

namespace Merging

/-- The settled node with the given stem and merged children. -/
def assemble (m : Merging) (stem : Key) (parts : List (UInt8 × Tree × Nat)) :
    Except Fault (Tree × Nat) := do
  let l ← Loose.make stem (parts.map fun p => (p.1, p.2.1))
  return (l.settle m.policy, @List.sum Nat _ Zero.ofOfNat0 (parts.map fun p => p.2.2))

/-- The node with two children, which hold no key in common. -/
def fork (m : Merging) (stem : Key) (a : UInt8) (s : Tree) (b : UInt8) (t : Tree) :
    Except Fault (Tree × Nat) :=
  if a < b then m.assemble stem [(a, s, 0), (b, t, 0)]
  else m.assemble stem [(b, t, 0), (a, s, 0)]

/-- The node with the children that two lists have, named in any way, lined up: what only one list
has is settled, and what both have for a byte is merged. -/
def join {ι κ : Type} (m : Merging) (stem : Key) (newer : ι → Tree) (older : κ → Tree)
    (both : ι → κ → Asking (Tree × Nat)) (xs : List (UInt8 × ι)) (ys : List (UInt8 × κ)) :
    Asking (Tree × Nat) := do
  let parts ← (align xs ys).mapM fun (b, pairing) => do
    match pairing with
    | .left i => return (b, Tree.settled m.policy (newer i), 0)
    | .right j => return (b, Tree.settled m.policy (older j), 0)
    | .both i j => return (b, ← both i j)
  m.assemble stem parts

/-- Two leaves at the offset `depth`. -/
def mergeLeaves (m : Merging) (newer older : Record) (depth : Nat) : Asking (Tree × Nat) := do
  let newerKey ← load newer m.keyLength
  let olderKey ← load older m.keyLength
  let common := Key.commonLength (← Key.suffix newerKey depth) (olderKey.drop depth)
  let split := depth + common
  if m.keyLength ≤ split then
    return (.leaf newer, 1)
  m.fork (← Key.slice newerKey depth split) (← Key.byteAt newerKey split) (.leaf newer)
    (← Key.byteAt olderKey split) (.leaf older)

/-- A leaf and a tree at the offset `depth`; `newer` says which of them is newer. -/
def mergeLeaf (m : Merging) (r : Record) (newer : Bool) :
    Tree → (depth : Nat) → Asking (Tree × Nat)
  | .empty, _ => return (.leaf r, 0)
  | .leaf s, depth => if newer then m.mergeLeaves r s depth else m.mergeLeaves s r depth
  | .node h c, depth => do
      let key ← load r m.keyLength
      let branch := depth + h.stem.length
      let path ← Key.slice key depth branch
      let byte ← Key.byteAt key branch
      let common := Key.commonLength path h.stem
      match path.drop common, h.stem.drop common with
      | a :: _, b :: rest =>
          m.fork (path.take common) a (.leaf r)
            b (Tree.settled m.policy (Node.withStem ⟨h, c⟩ rest))
      | _, _ =>
          m.join path (fun () => .leaf r) c (fun () i => mergeLeaf m r newer (c i) (branch + 1))
            [(byte, ())] (NodeHeader.slots h fun i => !(c i).isEmpty)

/-- Two trees at the offset `depth`. -/
def merge (m : Merging) (newer older : Tree) (depth : Nat) : Asking (Tree × Nat) :=
  match newer, older with
  | .empty, t => return (Tree.settled m.policy t, 0)
  | t, .empty => return (Tree.settled m.policy t, 0)
  | .leaf r, t => m.mergeLeaf r true t depth
  | t, .leaf s => m.mergeLeaf s false t depth
  | .node h c, .node h' c' => do
      let common := Key.commonLength h.stem h'.stem
      let stem := h.stem.take common
      let below := depth + common + 1
      let slots := NodeHeader.slots h fun i => !(c i).isEmpty
      let slots' := NodeHeader.slots h' fun i => !(c' i).isEmpty
      match _hs : h.stem.drop common, _hs' : h'.stem.drop common with
      | [], [] => m.join stem c c' (fun i j => merge m (c i) (c' j) below) slots slots'
      | [], b :: rest =>
          let longer := Node.withStem ⟨h', c'⟩ rest
          m.join stem c (fun () => longer) (fun i () => merge m (c i) longer below)
            slots [(b, ())]
      | a :: rest, [] =>
          let longer := Node.withStem ⟨h, c⟩ rest
          m.join stem (fun () => longer) c' (fun () j => merge m longer (c' j) below)
            [(a, ())] slots'
      | a :: rest, b :: rest' =>
          m.fork stem a (Tree.settled m.policy (Node.withStem ⟨h, c⟩ rest))
            b (Tree.settled m.policy (Node.withStem ⟨h', c'⟩ rest'))
  termination_by newer.height + older.height
  decreasing_by
    · have := Tree.height_child h c i
      have := Tree.height_child h' c' j
      omega
    · have := Tree.height_child h c i
      have := height_withStem h' c' rest
      have := congrArg List.length _hs'
      simp only [List.length_drop, List.length_cons] at this
      omega
    · have := Tree.height_child h' c' j
      have := height_withStem h c rest
      have := congrArg List.length _hs
      simp only [List.length_drop, List.length_cons] at this
      omega

end Merging

/-- The static tree with the records of both trees, the newer ones where a key is in both. -/
def merge (newer older : StaticTree) (p : ShapePolicy) : Asking (StaticTree × MergeOutcome) := do
  if newer.keyLength ≠ older.keyLength then
    .stop .keyLength
  let m : Merging := ⟨older.keyLength, p⟩
  let (root, collisions) ← m.merge newer.root older.root 0
  let total := newer.size + older.size
  if total < collisions then
    .stop .underflow
  let items := total - collisions
  return (.ofRoot root older.keyLength items, ⟨items, collisions⟩)

end RadixIndex.Static.Asking
