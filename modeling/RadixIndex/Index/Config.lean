/-
# Configurations

A configuration says how long the keys of an index are, when the index merges by
itself, and how the nodes of its static tree are shaped.

A configuration can be written down as a plain value and read back.  It is read
from an object, by the names of its fields, or from a list, by their order; fields
that are missing have their default values.
-/
import RadixIndex.Static.Loose

namespace RadixIndex

/-- The largest number that a count can be. -/
def maxCount : Nat := (1 <<< 64) - 1

/-- The settings of an index. -/
structure Config where
  /-- The length of every key in bytes. -/
  keyLength : Nat := 8
  /-- Merge before a write once it is due. -/
  autoMerge : Bool := false
  /-- A merge is due only when the dynamic tree has more records than this. -/
  mergeThreshold : Nat := 1000000
  /-- A merge is due only when the dynamic tree has more records than the static
  tree has for each of this many. -/
  mergeRatio : Nat := 10
  /-- A static node with more children than this is full. -/
  denseThreshold : Nat := 227
  deriving DecidableEq, Repr

/-- Why there can be no index with a configuration. -/
inductive ConfigError where
  | zeroKeyLength
  | zeroMergeRatio
  | denseThresholdTooLarge (threshold : Nat)
  deriving DecidableEq, Repr

namespace ConfigError

/-- The name of an error. -/
def name : ConfigError → String
  | .zeroKeyLength => "ZeroKeyLength"
  | .zeroMergeRatio => "ZeroMergeRatio"
  | .denseThresholdTooLarge _ => "DenseThresholdTooLarge"

/-- The text of an error. -/
def message : ConfigError → String
  | .zeroKeyLength => "Key length must be at least one byte"
  | .zeroMergeRatio => "Merge ratio must be at least 1"
  | .denseThresholdTooLarge n => s!"Dense threshold {n} exceeds the 256-way fan-out"

end ConfigError

namespace Config

/-- Whether there can be an index with this configuration. -/
def validate (c : Config) : Except ConfigError Unit := do
  if c.keyLength = 0 then
    throw .zeroKeyLength
  if c.mergeRatio = 0 then
    throw .zeroMergeRatio
  if 256 < c.denseThreshold then
    throw (.denseThresholdTooLarge c.denseThreshold)

/-- The rule for the shapes of static nodes. -/
def shapePolicy (c : Config) : Static.ShapePolicy := ⟨c.denseThreshold⟩

/-! ## Written configurations -/

/-- A plain value. -/
inductive Value where
  | null
  | bool (b : Bool)
  /-- A number written with digits alone. -/
  | natural (n : Nat)
  /-- A number with a sign, a fraction or an exponent. -/
  | number (text : String)
  | text (s : String)
  | list (items : List Value)
  | object (fields : List (String × Value))

/-- A count: a number written with digits alone that is not too large. -/
def Value.count? : Value → Option Nat
  | .natural n => if n ≤ maxCount then some n else none
  | _ => none

/-- A truth value. -/
def Value.bool? : Value → Option Bool
  | .bool b => some b
  | _ => none

/-- The names of the fields, in order. -/
def fieldNames : List String :=
  ["key_len", "auto_merge", "merge_threshold", "merge_ratio", "dense_threshold"]

/-- The configuration with the fields that are there. -/
def ofFields (field : Nat → Option Value) : Option Config := do
  let d : Config := {}
  let read {α : Type} (i : Nat) (as? : Value → Option α) (default : α) : Option α :=
    match field i with
    | none => some default
    | some v => as? v
  return {
    keyLength := ← read 0 Value.count? d.keyLength
    autoMerge := ← read 1 Value.bool? d.autoMerge
    mergeThreshold := ← read 2 Value.count? d.mergeThreshold
    mergeRatio := ← read 3 Value.count? d.mergeRatio
    denseThreshold := ← read 4 Value.count? d.denseThreshold }

/-- The configuration that a value describes.  Of several fields of one name the
last one counts; a list may leave out fields at its end. -/
def read : Value → Option Config
  | .object fields =>
      ofFields fun i => fieldNames[i]? >>= fun name => fields.reverse.lookup name
  | .list items =>
      if items.length ≤ fieldNames.length then ofFields fun i => items[i]? else none
  | _ => none

/-- A configuration written down. -/
def write (c : Config) : Value :=
  .object (fieldNames.zip [
    .natural c.keyLength,
    .bool c.autoMerge,
    .natural c.mergeThreshold,
    .natural c.mergeRatio,
    .natural c.denseThreshold])

end Config

end RadixIndex
