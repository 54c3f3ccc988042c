/-
# Shared indexes

A shared index offers the operations of an index that can be offered to many
users at once, and shows nothing of the two trees behind them: its size is one
number.
-/
import RadixIndex.Index.Scan

namespace RadixIndex

/-- An index for many users. -/
structure SharedIndex where
  /-- The index for many users that this index becomes. -/
  ofIndex ::
  /-- The index again, for one user. -/
  toIndex : Index

namespace SharedIndex

/-- The shared index without records, if there can be one with the configuration. -/
def withConfig (config : Config) (loader : Loader) : Except ConfigError SharedIndex := do
  return ofIndex (← Index.withConfig config loader)

/-- Stores `record` under `key` as an index does. -/
def insert (x : SharedIndex) (key : Key) (record : Record) :
    Except Fault (Bool × SharedIndex) := do
  let (inserted, index) ← x.toIndex.insert key record
  return (inserted, ofIndex index)

/-- Stores `record` under `key`, in the place of another, as an index does. -/
def upsert (x : SharedIndex) (key : Key) (record : Record) : Except Fault SharedIndex := do
  return ofIndex (← x.toIndex.upsert key record)

/-- Removes the record under `key` as an index does. -/
def erase (x : SharedIndex) (key : Key) : Except Fault (Bool × SharedIndex) := do
  let (erased, index) ← x.toIndex.erase key
  return (erased, ofIndex index)

/-- The index with everything in the static tree. -/
def merge (x : SharedIndex) : Except Fault (SharedIndex × MergeOutcome) := do
  let (index, outcome) ← x.toIndex.merge
  return (ofIndex index, outcome)

/-- The record under a key. -/
def get (x : SharedIndex) (key : Key) : Option Record := x.toIndex.get key

/-- The first `n` records whose keys are not smaller than `key`. -/
def scan (x : SharedIndex) (key : Key) (n : Nat) : Except Fault (List Record) :=
  x.toIndex.scan key n

/-- The number of records of both trees; a hidden record counts too. -/
def size (x : SharedIndex) : Nat := x.toIndex.size

/-- There are no records. -/
def isEmpty (x : SharedIndex) : Bool := x.toIndex.isEmpty

/-- The counts of both trees. -/
def stats (x : SharedIndex) : Index.Stats := x.toIndex.stats

end SharedIndex

end RadixIndex
