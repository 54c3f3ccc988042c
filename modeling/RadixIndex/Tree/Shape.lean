/-
# The shape of a tree

The shape report sums up the inner nodes of a tree: how many children they have
together, how long their stems are, and how much memory sits in nodes with and
without a leaf as a direct child.
-/
import RadixIndex.Tree

namespace RadixIndex

/-- A summary of the inner nodes of a tree. -/
structure Histogram where
  /-- The children of all inner nodes. -/
  items : Nat := 0
  /-- Bytes in nodes that have no leaf as a child. -/
  innerBytes : Nat := 0
  /-- Bytes in nodes that have a leaf as a child. -/
  leafBytes : Nat := 0
  /-- How many nodes have a stem of each length up to `inlineCapacity`. -/
  stemLengths : Vector Nat (inlineCapacity + 1) := Vector.replicate _ 0
  /-- How many nodes have a longer stem. -/
  longStems : Nat := 0
  deriving DecidableEq, Repr

namespace Histogram

/-- The number of nodes counted. -/
def nodes (s : Histogram) : Nat := @Vector.sum Nat _ _ Zero.ofOfNat0 s.stemLengths + s.longStems

/-- The report with one more node in it. -/
def add {H : Type} [NodeHeader H] (s : Histogram) (n : Node H) : Histogram :=
  let bytes := NodeHeader.footprint n.header
  let s := { s with items := s.items + n.count }
  let s :=
    if h : n.stemLength < inlineCapacity + 1 then
      { s with stemLengths := s.stemLengths.set n.stemLength (s.stemLengths[n.stemLength] + 1) }
    else { s with longStems := s.longStems + 1 }
  if n.isInner then { s with innerBytes := s.innerBytes + bytes }
  else { s with leafBytes := s.leafBytes + bytes }

end Histogram

/-- The shape report of a tree. -/
def Tree.histogram {H : Type} [NodeHeader H] (t : Tree H) : Histogram :=
  t.nodes.foldl Histogram.add {}

end RadixIndex
