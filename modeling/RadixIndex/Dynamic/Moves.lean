/-
# An account of the moves

A node that grows or shrinks is laid out anew, and all its children move.  The operations of this
module add and remove children as those of `RadixIndex.Dynamic.Node` do, and keep an account of
it: whenever a node has grown or shrunk, the sizes before and after are put down.
-/
import RadixIndex.Dynamic.Node

namespace RadixIndex.Dynamic

/-- A change of layout. -/
structure Move where
  source : Size
  target : Size
  deriving DecidableEq, Repr

/-- Operations that may stop, with an account of the moves. -/
abbrev Moving := StateT (List Move) (Except Fault)

namespace Moving

/-- Puts down that a node of one size has become one of another. -/
def note (source target : Size) : Moving Unit := modify (· ++ [⟨source, target⟩])

/-- The node in the next larger layout. -/
def grow (n : Node) : Moving Node := do
  let larger ← Node.grow n
  note (Node.size n) (Node.size larger)
  return larger

/-- The node in the next smaller layout, if its children fit in there. -/
def shrink (n : Node) : Moving Node := do
  let smaller ← Node.shrink n
  note (Node.size n) (Node.size smaller)
  return smaller

/-- Adds a child under a byte; a full node grows first. -/
def addChild (n : Node) (byte : UInt8) (t : Tree) (s : Stats) : Moving (Node × Stats) := do
  if Node.isFull n then
    let larger ← grow n
    let s ← s.replace (Node.size n) (Node.size larger)
    return (← Node.place byte t larger, s)
  else
    return (← Node.place byte t n, s)

/-- Removes the child of a byte, and gives it with the node that is left; a node that has become
small enough shrinks. -/
def removeChild (n : Node) (byte : UInt8) (s : Stats) : Moving (Tree × Node × Stats) := do
  match Node.extract byte n with
  | none => return (.empty, n, s)
  | some (.empty, n) => return (.empty, n, s)
  | some (t, n) =>
      let n ← Node.countDown n
      if Node.shrinksAt (Node.size n) n.count then
        let smaller ← shrink n
        return (t, smaller, ← s.replace (Node.size n) (Node.size smaller))
      else
        return (t, n, s)

end Moving

end RadixIndex.Dynamic
