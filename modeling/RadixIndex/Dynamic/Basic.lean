/-
# Dynamic trees

A dynamic tree is the part of an index that takes writes.  All its keys have the
same length; it knows how many records it holds and how many nodes of each size.
Every operation is told how to load the keys of the records.
-/
import RadixIndex.Tree.Cursor
import RadixIndex.Tree.Shape
import RadixIndex.Dynamic.Write

namespace RadixIndex

/-- A radix tree that takes writes. -/
structure DynamicTree where
  root : Dynamic.Tree
  /-- The length of all keys. -/
  keyLength : Nat
  /-- The number of records. -/
  size : Nat
  stats : Dynamic.Stats

namespace DynamicTree

/-- The tree without records for keys of a given length. -/
def empty (keyLength : Nat) : DynamicTree := ⟨.empty, keyLength, 0, {}⟩

instance : Inhabited DynamicTree := ⟨empty 8⟩

/-- Whether there are no records. -/
def isEmpty (t : DynamicTree) : Bool := t.size == 0

/-- The record under a key. -/
def get (t : DynamicTree) (L : Loader) (key : Key) : Option Record :=
  t.root.getFrom L key 0 false

/-- The record under a key, found with every byte of the key checked. -/
def getChecked (t : DynamicTree) (L : Loader) (key : Key) : Except Fault (Option Record) :=
  t.root.getCheckedFrom L key 0

/-- Puts `record` in the place of the record under `key`, if there is one, and
says whether there was. -/
def update (t : DynamicTree) (L : Loader) (key : Key) (record : Record) : Bool × DynamicTree :=
  match t.root.updateFrom L key record 0 false with
  | none => (false, t)
  | some root => (true, { t with root })

/-- Stores `record` under `key` unless the key is there already, and says whether
it did. -/
def insert (t : DynamicTree) (L : Loader) (key : Key) (record : Record) :
    Except Fault (Bool × DynamicTree) := do
  if key.length ≠ t.keyLength then
    throw .keyLength
  match ← t.root.insertFrom L key record 0 t.stats with
  | none => return (false, t)
  | some (root, stats) => return (true, { t with root, stats, size := t.size + 1 })

/-- Stores `record` under `key`, in the place of the record there if there is one. -/
def upsert (t : DynamicTree) (L : Loader) (key : Key) (record : Record) :
    Except Fault DynamicTree := do
  match t.update L key record with
  | (true, t) => return t
  | (false, t) => return (← t.insert L key record).2

/-- Removes the record under `key` if there is one, and says whether there was. -/
def erase (t : DynamicTree) (L : Loader) (key : Key) : Except Fault (Bool × DynamicTree) := do
  if key.length ≠ t.keyLength then
    throw .keyLength
  match ← t.root.eraseFrom L key 0 t.stats with
  | none => return (false, t)
  | some (root, stats) =>
      if t.size = 0 then
        throw .underflow
      return (true, { t with root, stats, size := t.size - 1 })

/-- A cursor on the first record whose key is not smaller than `key`. -/
def lowerBound (t : DynamicTree) (L : Loader) (key : Key) :
    Except Fault (Cursor Dynamic.Header) :=
  Cursor.lowerBound L t.root key

/-- A cursor on the first record. -/
def first (t : DynamicTree) : Cursor Dynamic.Header := Cursor.first t.root

/-- All records in the order of their keys. -/
def toList (t : DynamicTree) : List Record := t.root.toList

/-- The shape report. -/
def histogram (t : DynamicTree) : Histogram := t.root.histogram

end DynamicTree

end RadixIndex
