/-
# Integrity of static trees

The verifier of static trees lists what is wrong with a tree: a size that is not
the number of leaves, loose nodes, nodes that do not find their children in
ascending order, and, with a loader, leaves whose keys do not begin with the stems
and bytes that lead to them.
-/
import RadixIndex.Key.Text
import RadixIndex.Static.Basic

namespace RadixIndex.Static

/-- The name of a shape. -/
def Header.name : Header → String
  | .dense .. => "Dense"
  | .denseStem .. => "DensePrefix"
  | .full .. => "Full"
  | .fullStem .. => "FullPrefix"
  | .loose .. => "Universal"

/-- A header on one line. -/
def Header.text (h : Header) : String :=
  s!"StaticNode \x7b type: {h.name}, count: {h.count}, prefix: {h.stem.text} \x7d"

/-- What can be wrong with a static tree. -/
inductive Issue where
  /-- The tree claims another number of records than it has leaves. -/
  | records (claimed leaves : Nat)
  /-- A loose node is left over. -/
  | loose (header : Header)
  /-- A node has another number of children than it counts. -/
  | children (header : Header) (found : Nat)
  /-- The bytes that lead to the children of a node are out of order. -/
  | unsorted (header : Header) (keys : Key)
  /-- There is nothing in a slot that a key byte leads to. -/
  | emptyChild (header : Header)
  /-- A node in the form for nodes with a stem has none. -/
  | emptyStem (header : Header)
  /-- The key of a leaf does not begin with the bytes that lead to the leaf. -/
  | path (record : Record) (bytes : Key)

/-- The text of an issue. -/
def Issue.message : Issue → String
  | .records claimed leaves => s!"len is {claimed} but {leaves} leaves are reachable"
  | .loose header => s!"scratch node left in tree: {header.text}"
  | .children header found => s!"{header.text} has {found} populated slots"
  | .unsorted header keys => s!"{header.text} keys not ascending: {keys.text}"
  | .emptyChild header => s!"{header.text} holds an empty child"
  | .emptyStem header => s!"{header.text} has an empty prefix"
  | .path record bytes => s!"leaf {record.toNat} is not under path {bytes.text}"

/-- A header in a form for nodes with a stem has an empty one. -/
def Header.lacksStem : Header → Bool
  | .denseStem stem _ | .fullStem stem _ => stem.isEmpty
  | _ => false

/-- What is wrong with a node on its own. -/
def Node.issues (n : Node) : List Issue :=
  let h := n.header
  let keys := n.slots.map Prod.fst
  (if h.isLoose then [.loose h] else [])
    ++ (if keys.length = h.count then [] else [.children h keys.length])
    ++ (if ascending keys then [] else [.unsorted h keys])
    ++ (if n.children.any fun e => e.2.isEmpty then [.emptyChild h] else [])
    ++ (if h.lacksStem then [.emptyStem h] else [])

/-- What is wrong with the keys below a tree that `path` leads to, in an index of
keys of `keyLength` bytes. -/
def Tree.keyIssues (L : Loader) (keyLength : Nat) : Tree → (path : Key) → List Issue
  | .empty, _ => []
  | .leaf r, path => if path.isPrefixOf (L.load r keyLength) then [] else [.path r path]
  | .node h c, path =>
      (NodeHeader.slots h fun i => !(c i).isEmpty).flatMap fun s =>
        keyIssues L keyLength (c s.2) (path ++ h.stem ++ [s.1])

end RadixIndex.Static

open RadixIndex.Static

namespace RadixIndex.StaticTree

/-- What is wrong with a tree, its keys left aside. -/
def verify (t : StaticTree) : List Issue :=
  let leaves := t.root.leafCount
  (if leaves = t.size then [] else [.records t.size leaves])
    ++ t.root.nodes.flatMap Node.issues

/-- What is wrong with a tree, its keys included.  The bytes that lead to a leaf are
written down on the way, so there must be room for a whole key. -/
def verifyWith (t : StaticTree) (L : Loader) : Except Fault (List Issue) :=
  if t.keyLength ≤ Key.maxLength then
    .ok (t.verify ++ t.root.keyIssues L t.keyLength [])
  else
    .error .memory

end RadixIndex.StaticTree
