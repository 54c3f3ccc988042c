/-
# Integrity of dynamic trees

The verifier looks at every node of a tree, reachable by writes or not, and lists
what is wrong with it.  It checks the size of the tree, how each node finds its
children, and the counts of nodes; with a loader it also checks that the keys of
the leaves are spelled by the stems and bytes that lead to them.
-/
import RadixIndex.Dynamic.Listing

namespace RadixIndex.Dynamic

/-- What can be wrong with a dynamic tree. -/
inductive Issue where
  /-- The tree claims another number of records than it has leaves. -/
  | records (claimed leaves : Nat)
  /-- A node of this size should not have so many children. -/
  | fanOut (size : Size) (count : Nat)
  /-- The key bytes of a sorted array are out of order. -/
  | unsorted (size : Size) (keys : Key)
  /-- The table, the slots and the count of a node do not go together. -/
  | table (count indexed occupied : Nat)
  /-- A node has another number of children than it counts. -/
  | children (size : Size) (count : Nat)
  /-- The tree claims other counts of nodes than it has. -/
  | counts (claimed counted : Stats)
  /-- The key of a leaf does not begin with the bytes that lead to the leaf. -/
  | path (record : Record) (bytes : Key)
  /-- A node keeps other bytes of its stem than the keys below it have. -/
  | stem (header : Header)

/-- The text of an issue. -/
def Issue.message : Issue → String
  | .records claimed leaves => s!"len is {claimed} but {leaves} leaves are reachable"
  | .fanOut size count => s!"{size.name} holds {count} children"
  | .unsorted size keys => s!"{size.name} keys not sorted: {keys.text}"
  | .table count indexed occupied =>
      s!"Node48 count {count} but {indexed} indexed and {occupied} occupied"
  | .children size count => s!"{size.name} count {count} disagrees with populated slots"
  | .counts claimed counted => s!"stats {claimed.text} disagree with tree {counted.text}"
  | .path record bytes => s!"leaf {record.toNat} is not under path {bytes.text}"
  | .stem header => s!"inline prefix of {header.text} disagrees with its leaves"

/-- The least and the greatest number of children of a node. -/
def Size.fanOut : Size → Nat × Nat
  | .four => (2, 4)
  | .sixteen => (4, 16)
  | .fortyEight => (13, 48)
  | .full => (38, 256)

namespace Node

/-- What is wrong with the key bytes or the table of a node. -/
def finderIssues : Node → List Issue
  | ⟨⟨_, .four keys used⟩, _⟩ =>
      let keys := keys.toList.take used
      if ascending keys then [] else [.unsorted .four keys]
  | ⟨⟨_, .sixteen keys used⟩, _⟩ =>
      let keys := keys.toList.take used
      if ascending keys then [] else [.unsorted .sixteen keys]
  | ⟨⟨_, .fortyEight table count⟩, child⟩ =>
      let indexed := table.toList.countP Option.isSome
      let occupied := (List.ofFn child).countP fun t => !t.isEmpty
      if indexed = count ∧ occupied = count then [] else [.table count indexed occupied]
  | ⟨⟨_, .full _⟩, _⟩ => []

/-- What is wrong with the way a node finds its children. -/
def issues (n : Node) : List Issue :=
  let (least, greatest) := (size n).fanOut
  (if least ≤ n.count ∧ n.count ≤ greatest then [] else [.fanOut (size n) n.count])
    ++ finderIssues n
    ++ (if n.slots.length = n.count then [] else [.children (size n) n.count])

end Node

namespace Tree

/-- What is wrong with the keys below a tree that `path` leads to, in an index of
keys of `keyLength` bytes. -/
def keyIssues (L : Loader) (keyLength : Nat) : Tree → (path : Key) → Except Fault (List Issue)
  | .empty, _ => .ok []
  | .leaf r, path =>
      .ok (if path.isPrefixOf (L.load r keyLength) then [] else [.path r path])
  | .node h c, path => do
      let stem ← (Node.mk h c).fullStem L path.length keyLength
      let own := if stem.take h.stem.inline.length = h.stem.inline then [] else [Issue.stem h]
      let below ← (NodeHeader.slots h fun i => !(c i).isEmpty).mapM fun s =>
        keyIssues L keyLength (c s.2) (path ++ stem ++ [s.1])
      return own ++ below.flatten

end Tree

end RadixIndex.Dynamic

open RadixIndex.Dynamic

namespace RadixIndex.DynamicTree

/-- What is wrong with a tree, its keys left aside. -/
def verify (t : DynamicTree) : List Issue :=
  let leaves := t.root.leafCount
  let counted := t.root.recount
  (if leaves = t.size then [] else [.records t.size leaves])
    ++ t.root.nodes.flatMap Node.issues
    ++ (if counted = t.stats then [] else [.counts t.stats counted])

/-- What is wrong with a tree, its keys included.  The bytes that lead to a leaf are
written down on the way, so there must be room for a whole key. -/
def verifyWith (t : DynamicTree) (L : Loader) : Except Fault (List Issue) :=
  if t.keyLength ≤ Key.maxLength then do
    return t.verify ++ (← t.root.keyIssues L t.keyLength [])
  else
    .error .memory

end RadixIndex.DynamicTree
