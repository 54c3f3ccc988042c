/-
# Merging

Merging two static trees gives the tree of the records of both; of two records
with the same key the newer one is kept, and the *collision* is counted.

Two nodes are merged by comparing their stems.  Where the stems part, the nodes
become the two children of a new node.  Where one stem goes on beyond the end of
the other, the node with the longer stem, that part of its stem taken off, is
merged into the child with the right byte of the other node.  Where the stems are
the same, the children are merged byte by byte.  A leaf is merged into a node in
the same way, with the bytes of its key in the place of a stem.

What is taken over from one side alone stays as it is; a node that was given a
shorter stem, or other children, gets the shape that the policy asks for.
-/
import RadixIndex.Tree.Height
import RadixIndex.Static.Basic

namespace RadixIndex.Static

/-! ## Lining up children -/

/-- What two lists have for one byte. -/
inductive Pairing (α β : Type) where
  | left (x : α)
  | right (y : β)
  | both (x : α) (y : β)

/-- Two lists with ascending bytes as one, what belongs to the same byte put
together. -/
def align {α β : Type} :
    List (UInt8 × α) → List (UInt8 × β) → List (UInt8 × Pairing α β)
  | [], ys => ys.map fun y => (y.1, .right y.2)
  | xs, [] => xs.map fun x => (x.1, .left x.2)
  | (a, x) :: xs, (b, y) :: ys =>
      if a = b then (a, .both x y) :: align xs ys
      else if a < b then (a, .left x) :: align xs ((b, y) :: ys)
      else (b, .right y) :: align ((a, x) :: xs) ys
  termination_by xs ys => xs.length + ys.length

/-! ## Nodes with a part of the stem taken off -/

/-- The loose node with the children of `n` and the stem `rest`. -/
def Node.withStem (n : Node) (rest : Key) : Tree :=
  (Loose.mk rest n.children).toNode.toTree

theorem height_withStem (h : Header) (c : Fin (NodeHeader.width h) → Tree) (rest : Key) :
    (Node.withStem ⟨h, c⟩ rest).height + h.stem.length ≤
      (RadixIndex.Tree.node h c).height + rest.length := by
  have hle : (largest fun i => ((Loose.mk rest (Node.children ⟨h, c⟩)).inOrder i).height)
      ≤ largest fun i => (c i).height :=
    largest_le fun i => by
      simp only [Loose.inOrder, Node.children, List.get_eq_getElem, List.getElem_map]
      exact le_largest (fun i => (c i).height) _
  rw [Node.withStem, Loose.toTree_toNode, Tree.height_node, Tree.height_node]
  show 1 + rest.length + _ + h.stem.length ≤ 1 + h.stem.length + _ + rest.length
  exact Nat.le_trans (Nat.add_le_add_right (Nat.add_le_add_left hle _) _) (by omega)

/-! ## Merging trees -/

/-- What a merge goes by. -/
structure Merger where
  loader : Loader
  /-- The length of all keys. -/
  keyLength : Nat
  policy : ShapePolicy

namespace Merger

/-- A merged tree, and how many keys were in both sides. -/
abbrev Result := Except Fault (Tree × Nat)

/-- The settled node with the given stem and merged children. -/
def assemble (m : Merger) (stem : Key) (parts : List (UInt8 × Tree × Nat)) : Result := do
  let l ← Loose.make stem (parts.map fun p => (p.1, p.2.1))
  return (l.settle m.policy, @List.sum Nat _ Zero.ofOfNat0 (parts.map fun p => p.2.2))

/-- The node with two children, which hold no key in common. -/
def fork (m : Merger) (stem : Key) (a : UInt8) (s : Tree) (b : UInt8) (t : Tree) : Result :=
  if a < b then m.assemble stem [(a, s, 0), (b, t, 0)]
  else m.assemble stem [(b, t, 0), (a, s, 0)]

/-- Two leaves at the offset `depth`. -/
def mergeLeaves (m : Merger) (newer older : Record) (depth : Nat) : Result := do
  let newerKey := m.loader.load newer m.keyLength
  let olderKey := m.loader.load older m.keyLength
  let common := Key.commonLength (← Key.suffix newerKey depth) (olderKey.drop depth)
  let split := depth + common
  if m.keyLength ≤ split then
    return (.leaf newer, 1)
  m.fork (← Key.slice newerKey depth split) (← Key.byteAt newerKey split) (.leaf newer)
    (← Key.byteAt olderKey split) (.leaf older)

/-- A leaf and a tree at the offset `depth`; `newer` says which of them is newer. -/
def mergeLeaf (m : Merger) (r : Record) (newer : Bool) : Tree → (depth : Nat) → Result
  | .empty, _ => .ok (.leaf r, 0)
  | .leaf s, depth => if newer then m.mergeLeaves r s depth else m.mergeLeaves s r depth
  | .node h c, depth => do
      let key := m.loader.load r m.keyLength
      let branch := depth + h.stem.length
      let path ← Key.slice key depth branch
      let byte ← Key.byteAt key branch
      let common := Key.commonLength path h.stem
      match path.drop common, h.stem.drop common with
      | a :: _, b :: rest =>
          m.fork (path.take common) a (.leaf r)
            b (Tree.settled m.policy (Node.withStem ⟨h, c⟩ rest))
      | _, _ =>
          let slots := NodeHeader.slots h fun i => !(c i).isEmpty
          let parts ← (align [(byte, ())] slots).mapM fun (b, pairing) => do
            match pairing with
            | .left () => return (b, RadixIndex.Tree.leaf r, 0)
            | .right i => return (b, Tree.settled m.policy (c i), 0)
            | .both () i => return (b, ← mergeLeaf m r newer (c i) (branch + 1))
          m.assemble path parts

/-- Two trees at the offset `depth`. -/
def merge (m : Merger) (newer older : Tree) (depth : Nat) : Result :=
  match newer, older with
  | .empty, t => .ok (Tree.settled m.policy t, 0)
  | t, .empty => .ok (Tree.settled m.policy t, 0)
  | .leaf r, t => m.mergeLeaf r true t depth
  | t, .leaf s => m.mergeLeaf s false t depth
  | .node h c, .node h' c' => do
      let common := Key.commonLength h.stem h'.stem
      let stem := h.stem.take common
      let below := depth + common + 1
      let slots := NodeHeader.slots h fun i => !(c i).isEmpty
      let slots' := NodeHeader.slots h' fun i => !(c' i).isEmpty
      match _hs : h.stem.drop common, _hs' : h'.stem.drop common with
      | [], [] =>
          let parts ← (align slots slots').mapM fun (b, pairing) => do
            match pairing with
            | .left i => return (b, Tree.settled m.policy (c i), 0)
            | .right j => return (b, Tree.settled m.policy (c' j), 0)
            | .both i j => return (b, ← merge m (c i) (c' j) below)
          m.assemble stem parts
      | [], b :: rest =>
          let longer := Node.withStem ⟨h', c'⟩ rest
          let parts ← (align slots [(b, ())]).mapM fun (b, pairing) => do
            match pairing with
            | .left i => return (b, Tree.settled m.policy (c i), 0)
            | .right () => return (b, Tree.settled m.policy longer, 0)
            | .both i () => return (b, ← merge m (c i) longer below)
          m.assemble stem parts
      | a :: rest, [] =>
          let longer := Node.withStem ⟨h, c⟩ rest
          let parts ← (align [(a, ())] slots').mapM fun (b, pairing) => do
            match pairing with
            | .left () => return (b, Tree.settled m.policy longer, 0)
            | .right j => return (b, Tree.settled m.policy (c' j), 0)
            | .both () j => return (b, ← merge m longer (c' j) below)
          m.assemble stem parts
      | a :: rest, b :: rest' =>
          m.fork stem a (Tree.settled m.policy (Node.withStem ⟨h, c⟩ rest))
            b (Tree.settled m.policy (Node.withStem ⟨h', c'⟩ rest'))
  termination_by newer.height + older.height
  decreasing_by
    · have := Tree.height_child h c i
      have := Tree.height_child h' c' j
      omega
    · have := Tree.height_child h c i
      have := height_withStem h' c' rest
      have := congrArg List.length _hs'
      simp only [List.length_drop, List.length_cons] at this
      omega
    · have := Tree.height_child h' c' j
      have := height_withStem h c rest
      have := congrArg List.length _hs
      simp only [List.length_drop, List.length_cons] at this
      omega

end Merger

end RadixIndex.Static

namespace RadixIndex

/-- What a merge amounts to. -/
structure MergeOutcome where
  /-- The records of the merged tree. -/
  items : Nat
  /-- The keys that were in both trees. -/
  collisions : Nat
  deriving DecidableEq, Repr

/-- The static tree with the records of both trees, the newer ones where a key is
in both. -/
def StaticTree.merge (newer older : StaticTree) (L : Loader) (p : Static.ShapePolicy) :
    Except Fault (StaticTree × MergeOutcome) := do
  if newer.keyLength ≠ older.keyLength then
    throw .keyLength
  let m : Static.Merger := ⟨L, older.keyLength, p⟩
  let (root, collisions) ← m.merge newer.root older.root 0
  let total := newer.size + older.size
  if total < collisions then
    throw .underflow
  let items := total - collisions
  return (.ofRoot root older.keyLength items, ⟨items, collisions⟩)

end RadixIndex
