/-
# Faults

An operation that is asked for something it cannot do stops with a fault and
leaves no answer.  The operations that can stop have `Except Fault` in the type
of their result; all others always answer.
-/

namespace RadixIndex

/-- Why an operation stops without an answer. -/
inductive Fault where
  /-- The key does not have the length that the tree is made for. -/
  | keyLength
  /-- Bytes or slots were asked for that are not there. -/
  | range
  /-- Children were lined up in an order that is not ascending. -/
  | order
  /-- A node has no room for another child. -/
  | capacity
  /-- A counter would fall below zero. -/
  | underflow
  /-- A key would be longer than memory can hold. -/
  | memory
  deriving DecidableEq, Repr

end RadixIndex
