/-
# Indexes

An index is a dynamic tree in front of a static one.  Writes go to the dynamic
tree.  Reads ask the dynamic tree first, so a record written later hides the one
under the same key in the static tree.  A merge moves what the dynamic tree holds
into the static tree; with automatic merging a write starts with a merge when one
is due.

Erasing takes a record out of the dynamic tree only.  What the static tree holds
stays, and shows again.
-/
import RadixIndex.Index.Config
import RadixIndex.Static.Freeze
import RadixIndex.Static.Merge

namespace RadixIndex

/-- A dynamic tree in front of a static one. -/
structure Index where
  config : Config
  loader : Loader
  dynamic : DynamicTree
  frozen : StaticTree

namespace Index

/-- The index without records, whatever the configuration. -/
def new (config : Config) (loader : Loader) : Index :=
  ⟨config, loader, .empty config.keyLength, .empty config.keyLength⟩

/-- The index without records, if there can be one with the configuration. -/
def withConfig (config : Config) (loader : Loader) : Except ConfigError Index := do
  config.validate
  return new config loader

/-! ## Reading -/

/-- The record under a key. -/
def get (x : Index) (key : Key) : Option Record :=
  (x.dynamic.get x.loader key).or (x.frozen.get x.loader key)

/-- The record under a key, found in the dynamic tree with every byte of the key
checked. -/
def getChecked (x : Index) (key : Key) : Except Fault (Option Record) := do
  return (← x.dynamic.getChecked x.loader key).or (x.frozen.get x.loader key)

/-- There are no records. -/
def isEmpty (x : Index) : Bool := x.dynamic.isEmpty && x.frozen.isEmpty

/-- The number of records of both trees; a hidden record counts too. -/
def size (x : Index) : Nat := x.dynamic.size + x.frozen.size

/-! ## Merging -/

/-- An automatic merge is due: the dynamic tree has more records than the
threshold, and the ratio times as many are more than the static tree has. -/
def mergeDue (x : Index) : Bool :=
  x.config.autoMerge
    && decide (x.config.mergeThreshold < x.dynamic.size)
    && decide (x.frozen.size < min (x.dynamic.size * x.config.mergeRatio) maxCount)

/-- The index with everything in the static tree. -/
def merge (x : Index) : Except Fault (Index × MergeOutcome) := do
  if x.dynamic.isEmpty then
    return (x, ⟨x.frozen.size, 0⟩)
  let policy := x.config.shapePolicy
  let (fresh, dynamic) ← x.dynamic.freeze x.loader policy
  if x.frozen.isEmpty then
    return ({ x with dynamic, frozen := fresh }, ⟨fresh.size, 0⟩)
  let (frozen, outcome) ← fresh.merge x.frozen x.loader policy
  return ({ x with dynamic, frozen }, outcome)

/-- The index after the merge that is due, if one is. -/
def mergeIfDue (x : Index) : Except Fault Index := do
  if x.mergeDue then
    return (← x.merge).1
  else
    return x

/-! ## Writing -/

/-- Stores `record` under `key` unless the dynamic tree has the key already, and
says whether it did. -/
def insert (x : Index) (key : Key) (record : Record) : Except Fault (Bool × Index) := do
  let x ← x.mergeIfDue
  let (inserted, dynamic) ← x.dynamic.insert x.loader key record
  return (inserted, { x with dynamic })

/-- Stores `record` under `key`, in the place of the record that the dynamic tree
has there. -/
def upsert (x : Index) (key : Key) (record : Record) : Except Fault Index := do
  let x ← x.mergeIfDue
  let dynamic ← x.dynamic.upsert x.loader key record
  return { x with dynamic }

/-- Removes the record that the dynamic tree has under `key`, and says whether
there was one. -/
def erase (x : Index) (key : Key) : Except Fault (Bool × Index) := do
  let (erased, dynamic) ← x.dynamic.erase x.loader key
  return (erased, { x with dynamic })

/-! ## Reports -/

/-- What there is in both trees. -/
structure Stats where
  dynamicItems : Nat
  staticItems : Nat
  dynamic : Dynamic.Stats
  frozen : Static.Stats
  memory : Nat
  deriving DecidableEq, Repr

/-- The counts of both trees. -/
def stats (x : Index) : Stats where
  dynamicItems := x.dynamic.size
  staticItems := x.frozen.size
  dynamic := x.dynamic.stats
  frozen := x.frozen.stats
  memory := x.dynamic.stats.memory + x.frozen.stats.memory

end Index

end RadixIndex
