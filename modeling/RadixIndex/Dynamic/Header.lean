/-
# Headers of dynamic nodes

A dynamic node takes writes.  It has one of four layouts, by the number of
children it has room for:

    four, sixteen   a sorted array of key bytes beside the slots
    fortyEight      a table that leads from a byte to one of 48 slots
    full            one slot for every byte

Only a beginning of the stem is kept in the header, `inlineCapacity` bytes at
most; `Stem.inline_length` says that nothing of a shorter stem is dropped.
-/
import RadixIndex.Tree

namespace RadixIndex.Dynamic

/-! ## Stems -/

/-- A stem of which the header keeps a beginning. -/
structure Stem where
  /-- The number of bytes of the whole stem. -/
  length : Nat
  /-- The bytes that are kept. -/
  inline : Key
  inline_length : inline.length = min length inlineCapacity
  deriving DecidableEq

namespace Stem

/-- The stem of no bytes. -/
def nil : Stem := ⟨0, [], rfl⟩

/-- The stem of `length` bytes that begins with the bytes given, which have to
reach as far as the header keeps them. -/
def make (length : Nat) (bytes : Key) : Except Fault Stem :=
  if h : min length inlineCapacity ≤ bytes.length then
    .ok ⟨length, bytes.take (min length inlineCapacity), by simp [h]⟩
  else .error .range

/-- The first `n` bytes of a stem. -/
def take (s : Stem) (n : Nat) : Stem where
  length := min n s.length
  inline := s.inline.take (min n s.length)
  inline_length := by simp only [List.length_take, s.inline_length]; omega

/-- One stem, then a byte, then another stem. -/
def join (s : Stem) (byte : UInt8) (t : Stem) : Stem where
  length := s.length + 1 + t.length
  inline := (s.inline ++ byte :: t.inline).take inlineCapacity
  inline_length := by
    simp only [List.length_take, List.length_append, List.length_cons, s.inline_length,
      t.inline_length]
    omega

end Stem

/-! ## Layouts -/

/-- The four sizes of dynamic nodes. -/
inductive Size where
  | four | sixteen | fortyEight | full
  deriving DecidableEq, Repr

/-- The number of children that a node has room for. -/
@[reducible]
def Size.capacity : Size → Nat
  | .four => 4
  | .sixteen => 16
  | .fortyEight => 48
  | .full => 256

/-- The estimated memory of a node: 88 bytes with four slots inside; 16 bytes
for each slot outside, and a byte for each entry of the table. -/
def Size.footprint : Size → Nat
  | .four => 88
  | .sixteen => 88 + 16 * 16
  | .fortyEight => 88 + 256 + 16 * 48
  | .full => 88 + 16 * 256

/-- How a dynamic node finds its children.

The key bytes at and after the number of slots in use are left over from
removals and say nothing.  The layouts that do not need the number of children
for finding them keep it as a counter. -/
inductive Layout where
  | four (keys : Vector UInt8 4) (used : Fin 5)
  | sixteen (keys : Vector UInt8 16) (used : Fin 17)
  | fortyEight (table : Vector (Option (Fin 48)) 256) (count : Nat)
  | full (count : Nat)
  deriving DecidableEq

namespace Layout

/-- The size of a layout. -/
@[reducible]
def size : Layout → Size
  | .four .. => .four
  | .sixteen .. => .sixteen
  | .fortyEight .. => .fortyEight
  | .full .. => .full

/-- The number of children. -/
def count : Layout → Nat
  | .four _ used => used
  | .sixteen _ used => used
  | .fortyEight _ count => count
  | .full count => count

/-- The bytes that the table knows, with the slots it leads to. -/
def tableSlots (table : Vector (Option (Fin 48)) 256) : List (UInt8 × Fin 48) :=
  (List.finRange 256).filterMap fun b => table[b].map fun i => (UInt8.ofFin b, i)

/-- The slots in use with the bytes that lead to them. -/
def slots : (l : Layout) → (Fin l.size.capacity → Bool) → List (UInt8 × Fin l.size.capacity)
  | .four keys used, _ => Keyed.slots keys.get used
  | .sixteen keys used, _ => Keyed.slots keys.get used
  | .fortyEight table _, _ => tableSlots table
  | .full _, occupied => Direct.slots occupied

/-- The slot that a byte leads to. -/
def find : (l : Layout) → (Fin l.size.capacity → Bool) → UInt8 →
    Option (Fin l.size.capacity)
  | .four keys used, _, byte => Keyed.find keys.get used byte
  | .sixteen keys used, _, byte => Keyed.find keys.get used byte
  | .fortyEight table _, _, byte => table[byte.toFin]
  | .full _, occupied, byte => Direct.find occupied byte

/-- The byte at a position. -/
def byteAt : Layout → Nat → Option UInt8
  | .four keys _, p => keys[p]?
  | .sixteen keys _, p => keys[p]?
  | .fortyEight .., p => some (UInt8.ofNat p)
  | .full .., p => some (UInt8.ofNat p)

/-- The slot at a position. -/
def slotAt : (l : Layout) → Nat → Option (Fin l.size.capacity)
  | .four .., p => if h : p < 4 then some ⟨p, h⟩ else none
  | .sixteen .., p => if h : p < 16 then some ⟨p, h⟩ else none
  | .fortyEight table _, p => table[p]?.join
  | .full _, p => if h : p < 256 then some ⟨p, h⟩ else none

end Layout

/-! ## Headers -/

/-- The header of a dynamic node. -/
structure Header where
  stem : Stem
  layout : Layout
  deriving DecidableEq

instance : NodeHeader Header where
  width h := h.layout.size.capacity
  count h := h.layout.count
  stemLength h := h.stem.length
  stemBytes h := h.stem.inline
  footprint h := h.layout.size.footprint
  byByte h :=
    match h.layout with
    | .four .. | .sixteen .. => false
    | .fortyEight .. | .full .. => true
  slots h := h.layout.slots
  find h := h.layout.find
  byteAt h := h.layout.byteAt
  slotAt h := h.layout.slotAt

/-- A tree that takes writes. -/
abbrev Tree := RadixIndex.Tree Header

/-- An inner node of a tree that takes writes. -/
abbrev Node := RadixIndex.Node Header

end RadixIndex.Dynamic
