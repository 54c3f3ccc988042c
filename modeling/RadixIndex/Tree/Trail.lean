/-
# Trails

A trail is a cursor that keeps the way it came down and not what is still to come: for
every node on the way, deepest first, the position of the child that was entered.  To
move on, the deepest node that has another child goes on to that child, and the nodes
below it are left.

Positions count slots in some nodes and are bytes in others, and a position may lead
nowhere; a trail that came to one would stop with a fault.
-/
import RadixIndex.Tree.Cursor

namespace RadixIndex

/-- A node on the way down, and the position of the child that was entered. -/
structure Frame (H : Type) [NodeHeader H] where
  node : Node H
  position : Nat

/-- A place in the ordered walk over the leaves of a tree, by the way that led there. -/
structure Trail (H : Type) [NodeHeader H] where
  /-- The record the trail has come to. -/
  current : Option Record
  /-- The way down, deepest node first. -/
  frames : List (Frame H)

variable {H : Type} [NodeHeader H]

namespace Trail

/-- To the smallest leaf of a tree. -/
def descend : Tree H → List (Frame H) → Except Fault (Trail H)
  | .empty, frames => .ok ⟨none, frames⟩
  | .leaf r, frames => .ok ⟨some r, frames⟩
  | .node h c, frames =>
      match (Node.mk h c).positionFrom 0 with
      | none => .ok ⟨none, frames⟩
      | some p =>
          match NodeHeader.slotAt h p with
          | none => .error .range
          | some i => descend (c i) (⟨⟨h, c⟩, p⟩ :: frames)

/-- To the next leaf after those that the way down has passed. -/
def resume : List (Frame H) → Except Fault (Trail H)
  | [] => .ok ⟨none, []⟩
  | f :: frames =>
      match f.node.positionFrom (f.position + 1) with
      | none => resume frames
      | some p => do descend (← f.node.childAt p) (⟨f.node, p⟩ :: frames)

/-- To the smallest leaf of a tree. -/
def first (root : Tree H) : Except Fault (Trail H) := descend root []

/-- The search for the first leaf of a tree, or after it, whose key is not smaller than
`key`, when `depth` bytes of `key` have led to the tree. -/
def seekFrom (L : Loader) (key : Key) :
    Tree H → (depth : Nat) → List (Frame H) → Except Fault (Trail H)
  | .empty, _, frames => .ok ⟨none, frames⟩
  | .leaf r, _, frames =>
      if compare (L.load r key.length) key == .lt then resume frames
      else .ok ⟨some r, frames⟩
  | .node h c, depth, frames => do
      match ← (Node.mk h c).compareStem L key depth with
      | .gt => resume frames
      | .lt => descend (.node h c) frames
      | .eq =>
          let depth := depth + NodeHeader.stemLength h
          match key[depth]? with
          | none => descend (.node h c) frames
          | some byte =>
              match (Node.mk h c).seek byte with
              | none => resume frames
              | some (p, found) =>
                  match NodeHeader.slotAt h p with
                  | none => .error .range
                  | some i =>
                      let frames := ⟨⟨h, c⟩, p⟩ :: frames
                      if found then seekFrom L key (c i) (depth + 1) frames
                      else descend (c i) frames

/-- To the first leaf whose key is not smaller than `key`. -/
def lowerBound (L : Loader) (root : Tree H) (key : Key) : Except Fault (Trail H) :=
  seekFrom L key root 0 []

/-- One leaf further; a trail that has run off the tree stays where it is. -/
def advance (t : Trail H) : Except Fault (Trail H) :=
  match t.current with
  | none => .ok t
  | some _ => resume t.frames

end Trail

end RadixIndex
