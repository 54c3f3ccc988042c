/-
# Headers of static nodes

A static node is made once and never written to.  It keeps its whole stem, and
it has one of four shapes, each with a form for nodes without a stem:

    dense   as many slots as children, beside their key bytes
    full    one slot for every byte

A fifth shape, *loose*, is dense whatever the number of children; it only occurs
while trees are merged.
-/
import RadixIndex.Tree

namespace RadixIndex.Static

/-- The header of a static node. -/
inductive Header where
  /-- Key bytes, and no stem. -/
  | dense (keys : Key)
  /-- A stem and key bytes. -/
  | denseStem (stem keys : Key)
  /-- A slot for every byte, and no stem. -/
  | full (count : Nat)
  /-- A stem and a slot for every byte. -/
  | fullStem (stem : Key) (count : Nat)
  /-- A stem and key bytes, for the time being. -/
  | loose (stem keys : Key)
  deriving DecidableEq, Repr

namespace Header

/-- The stem. -/
def stem : Header → Key
  | .dense _ | .full _ => []
  | .denseStem stem _ | .fullStem stem _ | .loose stem _ => stem

/-- The number of slots. -/
@[reducible]
def width : Header → Nat
  | .dense keys | .denseStem _ keys | .loose _ keys => keys.length
  | .full _ | .fullStem .. => 256

/-- The number of children, as the header has it. -/
def count : Header → Nat
  | .dense keys | .denseStem _ keys | .loose _ keys => keys.length
  | .full count | .fullStem _ count => count

/-- The node is full: it has a slot for every byte. -/
def isFull : Header → Bool
  | .full _ | .fullStem .. => true
  | _ => false

/-- The node is loose. -/
def isLoose : Header → Bool
  | .loose .. => true
  | _ => false

/-- The estimated memory of a node: 96 bytes, the stem, 17 bytes for each key
byte with its slot, or 16 bytes for each of the 256 slots of a full node. -/
def footprint (h : Header) : Nat :=
  96 + h.stem.length + if h.isFull then 16 * 256 else 17 * h.width

/-- The slots in use with the bytes that lead to them. -/
def slots : (h : Header) → (Fin h.width → Bool) → List (UInt8 × Fin h.width)
  | .dense keys, _ => Keyed.slots keys.get keys.length
  | .denseStem _ keys, _ => Keyed.slots keys.get keys.length
  | .full _, occupied => Direct.slots occupied
  | .fullStem _ _, occupied => Direct.slots occupied
  | .loose _ keys, _ => Keyed.slots keys.get keys.length

/-- The slot that a byte leads to. -/
def find : (h : Header) → (Fin h.width → Bool) → UInt8 → Option (Fin h.width)
  | .dense keys, _, byte => Keyed.find keys.get keys.length byte
  | .denseStem _ keys, _, byte => Keyed.find keys.get keys.length byte
  | .full _, occupied, byte => Direct.find occupied byte
  | .fullStem _ _, occupied, byte => Direct.find occupied byte
  | .loose _ keys, _, byte => Keyed.find keys.get keys.length byte

/-- The byte at a position. -/
def byteAt : Header → Nat → Option UInt8
  | .dense keys, p | .denseStem _ keys, p | .loose _ keys, p => keys[p]?
  | .full _, p | .fullStem .., p => some (UInt8.ofNat p)

/-- The slot at a position. -/
def slotAt (h : Header) (p : Nat) : Option (Fin h.width) :=
  if hp : p < h.width then some ⟨p, hp⟩ else none

end Header

instance : NodeHeader Header where
  width := Header.width
  count := Header.count
  stemLength h := h.stem.length
  stemBytes := Header.stem
  footprint := Header.footprint
  byByte := Header.isFull
  slots := Header.slots
  find := Header.find
  byteAt := Header.byteAt
  slotAt := Header.slotAt

/-- A tree that is never written to. -/
abbrev Tree := RadixIndex.Tree Header

/-- An inner node of a tree that is never written to. -/
abbrev Node := RadixIndex.Node Header

end RadixIndex.Static
