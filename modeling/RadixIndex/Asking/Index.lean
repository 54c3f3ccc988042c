/-
# Indexes, with their questions

The operations of `RadixIndex.Index` and `RadixIndex.Index.Scan` for an index without its loader,
an `Index.Core`.  A lookup asks for the static tree only what the dynamic tree leaves open.  A
scan asks for two keys when both its cursors stand on a record, and for none otherwise.
-/
import RadixIndex.Asking.Dynamic
import RadixIndex.Asking.Static
import RadixIndex.Index.Scan

namespace RadixIndex.Index

/-- An index without its loader. -/
structure Core where
  config : Config
  dynamic : DynamicTree
  frozen : StaticTree

namespace Core

/-- The index without records, whatever the configuration. -/
def new (config : Config) : Core := ⟨config, .empty config.keyLength, .empty config.keyLength⟩

/-- The index without records, if there can be one with the configuration. -/
def withConfig (config : Config) : Except ConfigError Core := do
  config.validate
  return new config

/-! ## Reading -/

/-- The record under a key. -/
def get (x : Core) (key : Key) : Asking (Option Record) := do
  match ← Dynamic.Asking.get x.dynamic key with
  | some r => return some r
  | none => Static.Asking.get x.frozen key

/-- The record under a key, found in the dynamic tree with every byte of the key checked. -/
def getChecked (x : Core) (key : Key) : Asking (Option Record) := do
  match ← Dynamic.Asking.getChecked x.dynamic key with
  | some r => return some r
  | none => Static.Asking.get x.frozen key

/-! ## Merging -/

/-- An automatic merge is due. -/
def mergeDue (x : Core) : Bool :=
  x.config.autoMerge
    && decide (x.config.mergeThreshold < x.dynamic.size)
    && decide (x.frozen.size < min (x.dynamic.size * x.config.mergeRatio) maxCount)

/-- The index with everything in the static tree. -/
def merge (x : Core) : Asking (Core × MergeOutcome) := do
  if x.dynamic.isEmpty then
    return (x, ⟨x.frozen.size, 0⟩)
  let policy := x.config.shapePolicy
  let (fresh, dynamic) ← Dynamic.Asking.freeze x.dynamic policy
  if x.frozen.isEmpty then
    return ({ x with dynamic, frozen := fresh }, ⟨fresh.size, 0⟩)
  let (frozen, outcome) ← Static.Asking.merge fresh x.frozen policy
  return ({ x with dynamic, frozen }, outcome)

/-- The index after the merge that is due, if one is. -/
def mergeIfDue (x : Core) : Asking Core := do
  if x.mergeDue then
    return (← x.merge).1
  else
    return x

/-! ## Writing -/

/-- Stores `record` under `key` unless the dynamic tree has the key already, and says whether it
did. -/
def insert (x : Core) (key : Key) (record : Record) : Asking (Bool × Core) := do
  let x ← x.mergeIfDue
  let (inserted, dynamic) ← Dynamic.Asking.insert x.dynamic key record
  return (inserted, { x with dynamic })

/-- Stores `record` under `key`, in the place of the record that the dynamic tree has there. -/
def upsert (x : Core) (key : Key) (record : Record) : Asking Core := do
  let x ← x.mergeIfDue
  let dynamic ← Dynamic.Asking.upsert x.dynamic key record
  return { x with dynamic }

/-- Removes the record that the dynamic tree has under `key`, and says whether there was one. -/
def erase (x : Core) (key : Key) : Asking (Bool × Core) := do
  let (erased, dynamic) ← Dynamic.Asking.erase x.dynamic key
  return (erased, { x with dynamic })

/-! ## Scans -/

/-- A scan without its loader. -/
structure Scan where
  dynamic : Cursor Dynamic.Header
  frozen : Cursor Static.Header
  keyLength : Nat

namespace Scan

/-- The next record, and the scan after it. -/
def next (s : Scan) : Asking (Option Record × Scan) := do
  match s.dynamic.current, s.frozen.current with
  | none, none => return (none, s)
  | some d, none => return (some d, { s with dynamic := s.dynamic.advance })
  | none, some f => return (some f, { s with frozen := s.frozen.advance })
  | some d, some f =>
      let dynamicKey ← Asking.load d s.keyLength
      let frozenKey ← Asking.load f s.keyLength
      match compare dynamicKey frozenKey with
      | .lt => return (some d, { s with dynamic := s.dynamic.advance })
      | .gt => return (some f, { s with frozen := s.frozen.advance })
      | .eq => return (some d, { s with dynamic := s.dynamic.advance, frozen := s.frozen.advance })

/-- The next `n` records. -/
def take : Nat → Scan → Asking (List Record)
  | 0, _ => return []
  | n + 1, s => do
      match ← s.next with
      | (none, _) => return []
      | (some r, s) => return r :: (← take n s)

end Scan

/-- The scan from the first key that is not smaller than `key`. -/
def lowerBound (x : Core) (key : Key) : Asking Scan := do
  let dynamic ← Asking.lowerBound x.dynamic.root key
  let frozen ← Asking.lowerBound x.frozen.root key
  return ⟨dynamic, frozen, x.config.keyLength⟩

/-- The scan over all records. -/
def iter (x : Core) : Scan := ⟨x.dynamic.first, x.frozen.first, x.config.keyLength⟩

/-- The first `n` records whose keys are not smaller than `key`. -/
def scan (x : Core) (key : Key) (n : Nat) : Asking (List Record) := do
  (← x.lowerBound key).take n

end Core

end RadixIndex.Index
