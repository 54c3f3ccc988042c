/-
# Slots

What a node has in its slots is a function from the numbers of the slots, its
*cells*.

There are two ways to find slots that both families of trees use.  In a *keyed*
node each slot in use has a key byte, and the slots in use are the first ones.  In
a *direct* node every byte has its own slot, and the slots in use are the ones
that hold something.
-/

namespace RadixIndex

/-- The cells with `x` in the place of what is in one of them. -/
def setCell {n : Nat} {α : Type} (cell : Fin n → α) (i : Fin n) (x : α) (j : Fin n) : α :=
  if j = i then x else cell j

/-- The first `used` slots of a node with `n` slots. -/
def inUse (n used : Nat) : List (Fin n) := (List.finRange n).take used

/-! ## Keyed nodes -/

namespace Keyed

variable {n : Nat}

/-- The slots in use with their key bytes. -/
def slots (key : Fin n → UInt8) (used : Nat) : List (UInt8 × Fin n) :=
  (inUse n used).map fun i => (key i, i)

/-- The first slot in use with a given key byte. -/
def find (key : Fin n → UInt8) (used : Nat) (byte : UInt8) : Option (Fin n) :=
  (inUse n used).find? fun i => key i == byte

/-- The number of the first slot in use with a larger key byte; if there is none,
of the first slot that is not in use. -/
def place (key : Fin n → UInt8) (used : Nat) (byte : UInt8) : Nat :=
  match (inUse n used).find? fun i => decide (byte < key i) with
  | some i => i
  | none => used

end Keyed

/-! ## Direct nodes -/

namespace Direct

/-- The bytes whose slots hold something, in ascending order. -/
def slots (occupied : Fin 256 → Bool) : List (UInt8 × Fin 256) :=
  ((List.finRange 256).filter occupied).map fun b => (UInt8.ofFin b, b)

/-- The slot of a byte, if it holds something. -/
def find (occupied : Fin 256 → Bool) (byte : UInt8) : Option (Fin 256) :=
  if occupied byte.toFin then some byte.toFin else none

end Direct

end RadixIndex
