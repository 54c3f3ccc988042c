/-
# Children of dynamic nodes

`addChild` and `removeChild` keep the children of a node in the order of their
bytes.  A full node first moves to the next larger layout; a node that has
become small enough moves to the next smaller one.  The points of growth and of
shrinking are apart, so a node does not move to and fro:

    grow     5th child   17th child   49th child
    shrink   to 3        to 12        to 37

Adding expects a byte that is not there yet and a child that is something.  What
happens otherwise is as definite: the child is put in all the same and counted.
-/
import RadixIndex.Dynamic.Stats

namespace RadixIndex.Dynamic

namespace Node

/-! ## Nodes of each layout -/

/-- The node of four with the given key bytes and cells. -/
def ofFour (stem : Stem) (keys : Vector UInt8 4) (used : Fin 5) (cell : Fin 4 → Tree) : Node :=
  .build ⟨stem, .four keys used⟩ cell

/-- The node of sixteen with the given key bytes and cells. -/
def ofSixteen (stem : Stem) (keys : Vector UInt8 16) (used : Fin 17) (cell : Fin 16 → Tree) :
    Node :=
  .build ⟨stem, .sixteen keys used⟩ cell

/-- The node of forty-eight with the given table and cells. -/
def ofFortyEight (stem : Stem) (table : Vector (Option (Fin 48)) 256) (count : Nat)
    (cell : Fin 48 → Tree) : Node :=
  .build ⟨stem, .fortyEight table count⟩ cell

/-- The full node with the given cells. -/
def ofFull (stem : Stem) (count : Nat) (cell : Fin 256 → Tree) : Node :=
  .build ⟨stem, .full count⟩ cell

/-- A node with room for four children, none of them there yet. -/
def new (stem : Stem) : Node := ofFour stem (Vector.replicate 4 0) 0 fun _ => .empty

/-- The size of a node. -/
def size (n : Node) : Size := n.header.layout.size

/-- The same node with another stem. -/
def withStem (n : Node) (stem : Stem) : Node := ⟨⟨stem, n.header.layout⟩, n.child⟩

/-- The node has no room left. -/
def isFull (n : Node) : Bool := decide (n.size.capacity ≤ n.count)

/-- The entries of a list of slots when each slot is emptied as it is reached:
only the first entry of a slot finds something there. -/
def emptying {n : Nat} : List (UInt8 × Fin n) → (emptied : List (Fin n)) →
    List (UInt8 × Option (Fin n))
  | [], _ => []
  | (b, i) :: rest, emptied =>
      if i ∈ emptied then (b, none) :: emptying rest emptied
      else (b, some i) :: emptying rest (i :: emptied)

/-- The children with their bytes, each taken out of its slot as it is listed. -/
def takeChildren (n : Node) : List (UInt8 × Tree) :=
  (emptying n.slots []).map fun s => (s.1, (s.2.map n.child).getD .empty)

/-! ## Moving cells -/

/-- The cells with `x` put in at `pos`, the cells from there up to `used` moving
one place up. -/
def shiftIn {n : Nat} {α : Type} (cell : Fin n → α) (pos used : Nat) (x : α) (i : Fin n) :
    α :=
  if i.val = pos then x
  else if pos < i.val ∧ i.val ≤ used then cell ⟨i.val - 1, by omega⟩
  else cell i

/-- The cells without the one at `pos`, the cells after it up to `used` moving
one place down and `last` filling the last of them. -/
def shiftOut {n : Nat} {α : Type} (cell : Fin n → α) (pos used : Nat) (last : α)
    (i : Fin n) : α :=
  if h : pos ≤ i.val ∧ i.val + 1 < used ∧ i.val + 1 < n then cell ⟨i.val + 1, h.2.2⟩
  else if pos ≤ i.val ∧ i.val + 1 = used then last
  else cell i

/-- The key bytes with one more put in. -/
def insertKey {n : Nat} (keys : Vector UInt8 n) (pos used : Nat) (byte : UInt8) :
    Vector UInt8 n :=
  Vector.ofFn (shiftIn keys.get pos used byte)

/-- The key bytes with one taken out; the last place in use keeps its byte. -/
def eraseKey {n : Nat} (keys : Vector UInt8 n) (pos used : Nat) : Vector UInt8 n :=
  Vector.ofFn fun i => shiftOut keys.get pos used (keys.get i) i

/-- The table with another entry for a byte. -/
def setTable (table : Vector (Option (Fin 48)) 256) (byte : UInt8) (entry : Option (Fin 48)) :
    Vector (Option (Fin 48)) 256 :=
  table.set byte.toNat entry byte.toNat_lt

/-! ## Changing the layout -/

/-- The cells `cells`, and `blank` after them. -/
def padded {α : Type} (cells : List α) (blank : α) {n : Nat} (i : Fin n) : α :=
  cells[i.val]?.getD blank

/-- The node in the next larger layout. -/
def grow : Node → Except Fault Node
  | ⟨⟨stem, .four keys used⟩, child⟩ =>
      .ok <| ofSixteen stem (Vector.ofFn (padded keys.toList 0)) ⟨used.val, by omega⟩
        (padded (List.ofFn child) .empty)
  | ⟨⟨stem, .sixteen keys used⟩, child⟩ =>
      let slots := Keyed.slots keys.get used
      let table (b : Fin 256) : Option (Fin 48) :=
        (slots.reverse.lookup (UInt8.ofFin b)).map fun i => ⟨i.val, by omega⟩
      .ok <| ofFortyEight stem (Vector.ofFn table) used
        (padded (slots.map fun s => child s.2) .empty)
  | n@⟨⟨stem, .fortyEight _ count⟩, _⟩ =>
      let children := takeChildren n
      .ok <| ofFull stem count fun b => (children.lookup (UInt8.ofFin b)).getD .empty
  | ⟨⟨_, .full _⟩, _⟩ => .error .capacity

/-- The node in the next smaller layout, if its children fit in there. -/
def shrink : Node → Except Fault Node
  | ⟨⟨stem, .sixteen keys used⟩, child⟩ =>
      if h : used.val < 5 then
        .ok <| ofFour stem (Vector.ofFn (padded keys.toList 0)) ⟨used.val, h⟩
          (padded (List.ofFn child) .empty)
      else .error .capacity
  | n@⟨⟨stem, .fortyEight _ count⟩, _⟩ =>
      let children := takeChildren n
      if h : count < 17 ∧ children.length ≤ 16 then
        .ok <| ofSixteen stem (Vector.ofFn (padded (children.map Prod.fst) 0)) ⟨count, h.1⟩
          (padded (children.map Prod.snd) .empty)
      else .error .capacity
  | n@⟨⟨stem, .full count⟩, _⟩ =>
      let children := takeChildren n
      if children.length ≤ 48 then
        let table (b : Fin 256) : Option (Fin 48) :=
          (List.finRange 48).find? fun i =>
            (children[i.val]?.map Prod.fst) == some (UInt8.ofFin b)
        .ok <| ofFortyEight stem (Vector.ofFn table) count
          (padded (children.map Prod.snd) .empty)
      else .error .capacity
  | ⟨⟨_, .four ..⟩, _⟩ => .error .capacity

/-- A node of this size with so many children is due to shrink. -/
def shrinksAt : Size → Nat → Bool
  | .sixteen, 3 => true
  | .fortyEight, 12 => true
  | .full, 37 => true
  | _, _ => false

/-! ## Adding a child -/

/-- The slot to fill next: `next` if there is nothing in it, otherwise the first
slot with nothing in it, and `next` again if there is none. -/
def freeSlot {n : Nat} (cell : Fin n → Tree) (next : Fin n) : Fin n :=
  if (cell next).isEmpty then next
  else ((List.finRange n).find? fun i => (cell i).isEmpty).getD next

/-- Puts a child in a node that has room for it. -/
def place (byte : UInt8) (t : Tree) : Node → Except Fault Node
  | ⟨⟨stem, .four keys used⟩, child⟩ =>
      if h : used.val < 4 then
        let pos := Keyed.place keys.get used byte
        .ok <| ofFour stem (insertKey keys pos used byte) ⟨used.val + 1, by omega⟩
          (shiftIn child pos used t)
      else .error .capacity
  | ⟨⟨stem, .sixteen keys used⟩, child⟩ =>
      if h : used.val < 16 then
        let pos := Keyed.place keys.get used byte
        .ok <| ofSixteen stem (insertKey keys pos used byte) ⟨used.val + 1, by omega⟩
          (shiftIn child pos used t)
      else .error .capacity
  | ⟨⟨stem, .fortyEight table count⟩, child⟩ =>
      if h : count < 48 then
        let slot := freeSlot child ⟨count, h⟩
        .ok <| ofFortyEight stem (setTable table byte (some slot)) (count + 1)
          (setCell child slot t)
      else .error .capacity
  | ⟨⟨stem, .full count⟩, child⟩ =>
      .ok <| ofFull stem (count + 1) (setCell child byte.toFin t)

/-- Adds a child under a byte; a full node grows first. -/
def addChild (n : Node) (byte : UInt8) (t : Tree) (s : Stats) : Except Fault (Node × Stats) := do
  if isFull n then
    let larger ← grow n
    let s ← s.replace (size n) (size larger)
    return (← place byte t larger, s)
  else
    return (← place byte t n, s)

/-! ## Removing a child -/

/-- Takes the child of a byte out of its slot and closes the gap; the count is
not changed.  `none` if the byte leads nowhere. -/
def extract (byte : UInt8) : Node → Option (Tree × Node)
  | ⟨⟨stem, .four keys used⟩, child⟩ =>
      (Keyed.find keys.get used byte).map fun i =>
        (child i, ofFour stem (eraseKey keys i used) used (shiftOut child i used .empty))
  | ⟨⟨stem, .sixteen keys used⟩, child⟩ =>
      (Keyed.find keys.get used byte).map fun i =>
        (child i, ofSixteen stem (eraseKey keys i used) used (shiftOut child i used .empty))
  | ⟨⟨stem, .fortyEight table count⟩, child⟩ =>
      (table.get byte.toFin).map fun i =>
        (child i, ofFortyEight stem (setTable table byte none) count (setCell child i .empty))
  | ⟨⟨stem, .full count⟩, child⟩ =>
      some (child byte.toFin, ofFull stem count (setCell child byte.toFin .empty))

/-- The node with a count that is one less. -/
def countDown : Node → Except Fault Node
  | ⟨⟨stem, .four keys used⟩, child⟩ =>
      if used = 0 then .error .underflow
      else .ok ⟨⟨stem, .four keys ⟨used.val - 1, by omega⟩⟩, child⟩
  | ⟨⟨stem, .sixteen keys used⟩, child⟩ =>
      if used = 0 then .error .underflow
      else .ok ⟨⟨stem, .sixteen keys ⟨used.val - 1, by omega⟩⟩, child⟩
  | ⟨⟨stem, .fortyEight table count⟩, child⟩ =>
      if count = 0 then .error .underflow
      else .ok ⟨⟨stem, .fortyEight table (count - 1)⟩, child⟩
  | ⟨⟨stem, .full count⟩, child⟩ =>
      if count = 0 then .error .underflow
      else .ok ⟨⟨stem, .full (count - 1)⟩, child⟩

/-- Removes the child of a byte, and gives it with the node that is left; a node
that has become small enough shrinks.  What is given is empty when there was
nothing to remove. -/
def removeChild (n : Node) (byte : UInt8) (s : Stats) :
    Except Fault (Tree × Node × Stats) := do
  match extract byte n with
  | none => return (.empty, n, s)
  | some (.empty, n) => return (.empty, n, s)
  | some (t, n) =>
      let n ← countDown n
      if shrinksAt (size n) n.count then
        let smaller ← shrink n
        return (t, smaller, ← s.replace (size n) (size smaller))
      else
        return (t, n, s)

end Node

end RadixIndex.Dynamic
