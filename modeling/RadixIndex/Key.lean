/-
# Keys

A key is a string of bytes, ordered lexicographically by unsigned bytes.  Every
key of an index has the same length, but a key that is *looked for* may have
any length, so cutting a key is an operation that can fail: `Key.slice`,
`Key.suffix` and `Key.byteAt` stop with a fault when they are asked for bytes that
the key does not have.
-/
import RadixIndex.Fault

namespace RadixIndex

/-- A record reference: what the index stores and hands back. -/
abbrev Record := UInt64

/-- A string of bytes. -/
abbrev Key := List UInt8

namespace Key

/-- The greatest number of bytes that can stand side by side in a memory of 64-bit
addresses, which is half of the addresses. -/
def maxLength : Nat := (1 <<< 63) - 1

/-! ## Cutting keys -/

/-- The bytes of `key` at the offsets from `start` up to, not including, `stop`. -/
def slice (key : Key) (start stop : Nat) : Except Fault Key :=
  if start ≤ stop ∧ stop ≤ key.length then .ok ((key.take stop).drop start)
  else .error .range

/-- The bytes of `key` from the offset `start` on. -/
def suffix (key : Key) (start : Nat) : Except Fault Key :=
  if start ≤ key.length then .ok (key.drop start) else .error .range

/-- The byte of `key` at the offset `i`. -/
def byteAt (key : Key) (i : Nat) : Except Fault UInt8 :=
  match key[i]? with
  | some b => .ok b
  | none => .error .range

/-! ## Comparing keys -/

/-- The key goes on at `depth` with all of `part`. -/
def continuesWith (key : Key) (depth : Nat) (part : Key) : Bool :=
  decide (depth + part.length ≤ key.length) && (key.drop depth).take part.length == part

/-- The length of the longest common beginning of two keys. -/
def commonLength : Key → Key → Nat
  | x :: xs, y :: ys => if x = y then commonLength xs ys + 1 else 0
  | _, _ => 0

end Key

/-- Every byte is smaller than the one that follows it. -/
def ascending : List UInt8 → Bool
  | x :: y :: rest => decide (x < y) && ascending (y :: rest)
  | _ => true

end RadixIndex
