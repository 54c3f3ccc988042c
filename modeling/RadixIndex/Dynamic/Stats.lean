/-
# Counts of dynamic nodes

A dynamic tree counts its nodes by size, and their memory, as it writes.
-/
import RadixIndex.Dynamic.Header

namespace RadixIndex.Dynamic

/-- How many nodes there are of each size, and the memory they take. -/
structure Stats where
  four : Nat := 0
  sixteen : Nat := 0
  fortyEight : Nat := 0
  full : Nat := 0
  memory : Nat := 0
  deriving DecidableEq, Repr

namespace Stats

/-- The number of nodes of a size. -/
def ofSize (s : Stats) : Size → Nat
  | .four => s.four
  | .sixteen => s.sixteen
  | .fortyEight => s.fortyEight
  | .full => s.full

/-- The counts with another number of nodes of one size. -/
def setSize (s : Stats) (size : Size) (n : Nat) : Stats :=
  match size with
  | .four => { s with four := n }
  | .sixteen => { s with sixteen := n }
  | .fortyEight => { s with fortyEight := n }
  | .full => { s with full := n }

/-- The counts with one more node. -/
def alloc (s : Stats) (size : Size) : Stats :=
  { s.setSize size (s.ofSize size + 1) with memory := s.memory + size.footprint }

/-- The counts with one node less, if there is one. -/
def free (s : Stats) (size : Size) : Except Fault Stats :=
  if s.ofSize size = 0 ∨ s.memory < size.footprint then .error .underflow
  else .ok { s.setSize size (s.ofSize size - 1) with memory := s.memory - size.footprint }

/-- The counts after a node of one size has become one of another. -/
def replace (s : Stats) (source target : Size) : Except Fault Stats := do
  return (← s.free source).alloc target

/-- The number of nodes of all sizes. -/
def nodes (s : Stats) : Nat := s.four + s.sixteen + s.fortyEight + s.full

end Stats

/-- The counts of the nodes of a tree. -/
def Tree.recount (t : Tree) : Stats :=
  t.nodes.foldl (fun s n => s.alloc n.header.layout.size) {}

end RadixIndex.Dynamic
