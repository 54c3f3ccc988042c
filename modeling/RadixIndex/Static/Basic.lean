/-
# Static trees

A static tree is the part of an index that is only read.  It is made as a whole,
from a dynamic tree or from two static ones, and counts its nodes when it is made.
-/
import RadixIndex.Tree.Cursor
import RadixIndex.Tree.Shape
import RadixIndex.Static.Loose

namespace RadixIndex

namespace Static

/-! ## Counts -/

/-- How many nodes there are of each shape, and the memory that all nodes take. -/
structure Stats where
  dense : Nat := 0
  denseStem : Nat := 0
  full : Nat := 0
  fullStem : Nat := 0
  memory : Nat := 0
  deriving DecidableEq, Repr

namespace Stats

/-- The number of nodes of all shapes. -/
def nodes (s : Stats) : Nat := s.dense + s.denseStem + s.full + s.fullStem

/-- The counts with one more node; a loose node counts with its memory only. -/
def add (s : Stats) (h : Header) : Stats :=
  let s := { s with memory := s.memory + h.footprint }
  match h with
  | .dense .. => { s with dense := s.dense + 1 }
  | .denseStem .. => { s with denseStem := s.denseStem + 1 }
  | .full .. => { s with full := s.full + 1 }
  | .fullStem .. => { s with fullStem := s.fullStem + 1 }
  | .loose .. => s

end Stats

/-- The counts of the nodes of a tree. -/
def Tree.recount (t : Tree) : Stats := t.nodes.foldl (fun s n => s.add n.header) {}

/-! ## Looking up a key -/

/-- The record found from a tree that `depth` bytes of `key` have led to. -/
def Tree.getFrom (L : Loader) (key : Key) : Tree → (depth : Nat) → Option Record
  | .empty, _ => none
  | .leaf r, depth => if L.matchesFrom r key depth then some r else none
  | .node h c, depth =>
      if Key.continuesWith key depth h.stem then
        let depth := depth + h.stem.length
        match key[depth]? with
        | none => none
        | some byte =>
            match NodeHeader.find h (fun i => !(c i).isEmpty) byte with
            | none => none
            | some i => getFrom L key (c i) (depth + 1)
      else none

end Static

/-! ## Trees -/

/-- A radix tree that is never written to. -/
structure StaticTree where
  root : Static.Tree
  /-- The length of all keys. -/
  keyLength : Nat
  /-- The number of records. -/
  size : Nat
  stats : Static.Stats

namespace StaticTree

/-- The tree without records for keys of a given length. -/
def empty (keyLength : Nat) : StaticTree := ⟨.empty, keyLength, 0, {}⟩

instance : Inhabited StaticTree := ⟨empty 8⟩

/-- The tree with the given root and number of records. -/
def ofRoot (root : Static.Tree) (keyLength size : Nat) : StaticTree :=
  ⟨root, keyLength, size, root.recount⟩

/-- Whether there are no records. -/
def isEmpty (t : StaticTree) : Bool := t.size == 0

/-- The record under a key. -/
def get (t : StaticTree) (L : Loader) (key : Key) : Option Record := t.root.getFrom L key 0

/-- A cursor on the first record whose key is not smaller than `key`. -/
def lowerBound (t : StaticTree) (L : Loader) (key : Key) :
    Except Fault (Cursor Static.Header) :=
  Cursor.lowerBound L t.root key

/-- A cursor on the first record. -/
def first (t : StaticTree) : Cursor Static.Header := Cursor.first t.root

/-- All records in the order of their keys. -/
def toList (t : StaticTree) : List Record := t.root.toList

/-- The shape report. -/
def histogram (t : StaticTree) : Histogram := t.root.histogram

end StaticTree

end RadixIndex
