/-
# Freezing

Freezing makes a static tree of a dynamic one.  The nodes stay the same nodes:
each gets its whole stem written out and the shape that the policy asks for.
-/
import RadixIndex.Dynamic.Basic
import RadixIndex.Static.Basic

namespace RadixIndex

/-- The static tree that a dynamic tree at the offset `depth` becomes. -/
def Dynamic.Tree.freezeFrom (L : Loader) (keyLength : Nat) (p : Static.ShapePolicy) :
    Dynamic.Tree → (depth : Nat) → Except Fault Static.Tree
  | .empty, _ => .ok .empty
  | .leaf r, _ => .ok (.leaf r)
  | .node h c, depth => do
      let n : Dynamic.Node := ⟨h, c⟩
      let stem ← n.fullStem L depth keyLength
      let entries ← (Dynamic.Node.emptying n.slots []).mapM fun s => do
        match s.2 with
        | none => return (s.1, RadixIndex.Tree.empty)
        | some i => return (s.1, ← freezeFrom L keyLength p (c i) (depth + stem.length + 1))
      return ((← Static.Loose.make stem entries).pack p).toTree

/-- The static tree with the records of `t`, and the dynamic tree without them. -/
def DynamicTree.freeze (t : DynamicTree) (L : Loader) (p : Static.ShapePolicy) :
    Except Fault (StaticTree × DynamicTree) := do
  let root ← t.root.freezeFrom L t.keyLength p 0
  return (.ofRoot root t.keyLength t.size, .empty t.keyLength)

end RadixIndex
