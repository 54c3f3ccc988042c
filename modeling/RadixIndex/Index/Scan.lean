/-
# Scans

A scan walks both trees of an index at once, each with its own cursor, and gives
their records in the order of their keys.  A key that both trees hold comes once,
with the record of the dynamic tree.
-/
import RadixIndex.Index.Basic

namespace RadixIndex

/-- A walk over both trees of an index. -/
structure Scan where
  dynamic : Cursor Dynamic.Header
  frozen : Cursor Static.Header
  loader : Loader
  keyLength : Nat

namespace Scan

/-- The next record, and the scan after it. -/
def next (s : Scan) : Option Record × Scan :=
  match s.dynamic.current, s.frozen.current with
  | none, none => (none, s)
  | some d, none => (some d, { s with dynamic := s.dynamic.advance })
  | none, some f => (some f, { s with frozen := s.frozen.advance })
  | some d, some f =>
      match compare (s.loader.load d s.keyLength) (s.loader.load f s.keyLength) with
      | .lt => (some d, { s with dynamic := s.dynamic.advance })
      | .gt => (some f, { s with frozen := s.frozen.advance })
      | .eq => (some d, { s with dynamic := s.dynamic.advance, frozen := s.frozen.advance })

/-- The next `n` records. -/
def take : Nat → Scan → List Record
  | 0, _ => []
  | n + 1, s =>
      match s.next with
      | (none, _) => []
      | (some r, s) => r :: take n s

/-- All records still to come. -/
def rest (s : Scan) : List Record := s.take (s.dynamic.bound + s.frozen.bound)

end Scan

namespace Index

/-- The scan from the first key that is not smaller than `key`. -/
def lowerBound (x : Index) (key : Key) : Except Fault Scan := do
  return ⟨← x.dynamic.lowerBound x.loader key, ← x.frozen.lowerBound x.loader key,
    x.loader, x.config.keyLength⟩

/-- The scan over all records. -/
def iter (x : Index) : Scan :=
  ⟨x.dynamic.first, x.frozen.first, x.loader, x.config.keyLength⟩

/-- The first `n` records whose keys are not smaller than `key`. -/
def scan (x : Index) (key : Key) (n : Nat) : Except Fault (List Record) := do
  return (← x.lowerBound key).take n

/-- All records in the order of their keys. -/
def toList (x : Index) : List Record := x.iter.rest

end Index

end RadixIndex
