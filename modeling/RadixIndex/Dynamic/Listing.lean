/-
# Dynamic trees as text

A node is described on one line.  The listing of a tree has a line for every
node, leaf and byte that leads to a child; what is below a line is indented.
-/
import RadixIndex.Key.Text
import RadixIndex.Dynamic.Basic

namespace RadixIndex.Dynamic

/-- The name of a size. -/
def Size.name : Size → String
  | .four => "Node4"
  | .sixteen => "Node16"
  | .fortyEight => "Node48"
  | .full => "Node256"

/-- A header on one line. -/
def Header.text (h : Header) : String :=
  s!"Node \x7b type: {h.layout.size.name}, count: {h.layout.count}, " ++
    s!"prefix_len: {h.stem.length}, prefix: {h.stem.inline.text} \x7d"

/-- The counts of nodes on one line. -/
def Stats.text (s : Stats) : String :=
  s!"DynamicStats \x7b node4: {s.four}, node16: {s.sixteen}, node48: {s.fortyEight}, " ++
    s!"node256: {s.full}, memory_bytes: {s.memory} \x7d"

/-- Two spaces for each level. -/
def indentation (level : Nat) : String := String.ofList (List.replicate (2 * level) ' ')

/-- The lines of a tree. -/
def Tree.lines : Tree → (level : Nat) → List String
  | .empty, level => [indentation level ++ "(empty)"]
  | .leaf r, level => [indentation level ++ "leaf " ++ r.toNat.repr]
  | .node h c, level =>
      (indentation level ++ h.text) ::
        (NodeHeader.slots h fun i => !(c i).isEmpty).flatMap fun s =>
          (indentation (level + 1) ++ "[" ++ hexByte s.1 ++ "]") :: Tree.lines (c s.2) (level + 2)

end RadixIndex.Dynamic

namespace RadixIndex.DynamicTree

/-- The listing of a tree. -/
def listing (t : DynamicTree) : String :=
  let head := s!"DynamicTree len={t.size} {t.stats.text}"
  String.join ((head :: t.root.lines 0).map (· ++ "\n"))

end RadixIndex.DynamicTree
