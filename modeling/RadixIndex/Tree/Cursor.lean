/-
# Cursors

A cursor stands on a leaf of a tree, or has run off it.  It knows the record it
stands on and the subtrees that are still to come, in order.  Moving on descends
to the smallest leaf of the first of these; a cursor that finds no leaf there has
run off the tree and stays there.
-/
import RadixIndex.Tree.Stem

namespace RadixIndex

/-- A place in the ordered walk over the leaves of a tree. -/
structure Cursor (H : Type) [NodeHeader H] where
  /-- The record the cursor stands on. -/
  current : Option Record
  /-- The subtrees to be walked after it. -/
  pending : List (Tree H)

variable {H : Type} [NodeHeader H]

namespace Cursor

/-- On the smallest leaf of a tree, with `pending` to follow. -/
def descend : Tree H → List (Tree H) → Cursor H
  | .empty, pending => ⟨none, pending⟩
  | .leaf r, pending => ⟨some r, pending⟩
  | .node h c, pending =>
      match NodeHeader.slots h fun i => !(c i).isEmpty with
      | [] => ⟨none, pending⟩
      | (_, i) :: rest => descend (c i) (rest.map (fun s => c s.2) ++ pending)

/-- On the first leaf of the first of the given subtrees. -/
def resume : List (Tree H) → Cursor H
  | [] => ⟨none, []⟩
  | t :: rest => descend t rest

/-- On the smallest leaf of a tree. -/
def first (root : Tree H) : Cursor H := descend root []

/-- The search for the first leaf of a tree, or of `pending` after it, whose key
is not smaller than `key`, when `depth` bytes of `key` have led to the tree. -/
def seekFrom (L : Loader) (key : Key) :
    Tree H → (depth : Nat) → (pending : List (Tree H)) → Except Fault (Cursor H)
  | .empty, _, pending => .ok ⟨none, pending⟩
  | .leaf r, _, pending =>
      if compare (L.load r key.length) key == .lt then .ok (resume pending)
      else .ok ⟨some r, pending⟩
  | .node h c, depth, pending => do
      match ← (Node.mk h c).compareStem L key depth with
      | .gt => return resume pending
      | .lt => return descend (.node h c) pending
      | .eq =>
          let depth := depth + NodeHeader.stemLength h
          match key[depth]? with
          | none => return descend (.node h c) pending
          | some byte =>
              match (NodeHeader.slots h fun i => !(c i).isEmpty).dropWhile
                  fun s => decide (s.1 < byte) with
              | [] => return resume pending
              | (b, i) :: rest =>
                  let pending := rest.map (fun s => c s.2) ++ pending
                  if b = byte then seekFrom L key (c i) (depth + 1) pending
                  else return descend (c i) pending

/-- On the first leaf whose key is not smaller than `key`. -/
def lowerBound (L : Loader) (root : Tree H) (key : Key) : Except Fault (Cursor H) :=
  seekFrom L key root 0 []

/-- One leaf further; a cursor that has run off the tree stays where it is. -/
def advance (cur : Cursor H) : Cursor H :=
  match cur.current with
  | none => cur
  | some _ => resume cur.pending

/-- The record the cursor stands on, and the cursor after it. -/
def next (cur : Cursor H) : Option Record × Cursor H :=
  (cur.current, cur.advance)

/-- The next `n` records, and the cursor after them. -/
def take : Nat → Cursor H → List Record × Cursor H
  | 0, cur => ([], cur)
  | n + 1, cur =>
      match cur.next with
      | (none, cur) => ([], cur)
      | (some r, cur) =>
          let (rs, cur) := take n cur
          (r :: rs, cur)

/-- No more records than this are still to come. -/
def bound (cur : Cursor H) : Nat :=
  1 + @List.sum Nat _ Zero.ofOfNat0 (cur.pending.map Tree.leafCount)

/-- All records still to come. -/
def rest (cur : Cursor H) : List Record × Cursor H :=
  cur.take cur.bound

end Cursor

/-- The records of a tree in the order of the walk. -/
def Tree.toList (t : Tree H) : List Record := (Cursor.first t).rest.1

end RadixIndex
