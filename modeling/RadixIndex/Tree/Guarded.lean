/-
# Looking up with guarded offsets

A search that goes on below a stem it has not compared may come to an offset that the key
does not reach.  It asks for a byte there, and for the bytes of a stem, in a way that says
when there are none.  Two things on its way are not asked for: the sum of an offset and a
length has to be an offset again, and the end of the key that is compared at a leaf has to
begin within the key.

In this module both can go wrong and stop the search with a fault.  The search is the one of
either family of trees: a stem that the node keeps whole is compared, and another one is
passed over and made up for at the leaf.
-/
import RadixIndex.Key.Loader
import RadixIndex.Tree

namespace RadixIndex

/-- The greatest offset. -/
def Key.maxOffset : Nat := (1 <<< 64) - 1

/-- The offset `k` bytes after `depth`. -/
def Key.advance (depth k : Nat) : Except Fault Nat :=
  if depth + k ≤ Key.maxOffset then .ok (depth + k) else .error .range

/-- Whether the leaf `r` holds `key`, when the first `depth` bytes of `key` are already known
to agree.  The other bytes are cut out of both keys. -/
def Loader.matchesGuarded (L : Loader) (r : Record) (key : Key) (depth : Nat) :
    Except Fault Bool := do
  if key.length ≤ depth then
    return true
  return (← Key.suffix (L.load r key.length) depth) == (← Key.suffix key depth)

variable {H : Type} [NodeHeader H]

namespace Node

/-- The node keeps only a beginning of its stem. -/
def cutsStem (n : Node H) : Bool := decide (n.stemBytes.length < n.stemLength)

/-- A key that has come to the node at the offset `depth` may go on to its children, as far
as the stem is compared. -/
def admits (n : Node H) (key : Key) (depth : Nat) : Bool :=
  n.cutsStem || Key.continuesWith key depth n.stemBytes

end Node

namespace Tree

/-- The record found from a tree that `depth` bytes of `key` have led to, some of them unseen
if `skipped`. -/
def getGuarded (L : Loader) (key : Key) :
    Tree H → (depth : Nat) → (skipped : Bool) → Except Fault (Option Record)
  | .empty, _, _ => .ok none
  | .leaf r, depth, skipped => do
      if ← L.matchesGuarded r key (if skipped then 0 else depth) then
        return some r
      else
        return none
  | .node h c, depth, skipped => do
      let n : Node H := ⟨h, c⟩
      let stop ← Key.advance depth n.stemLength
      if n.admits key depth then
        match key[stop]? with
        | none => return none
        | some byte =>
            match NodeHeader.find h (fun i => !(c i).isEmpty) byte with
            | none => return none
            | some i => getGuarded L key (c i) (← Key.advance stop 1) (skipped || n.cutsStem)
      else
        return none

end Tree

end RadixIndex
