/-
# Stems in memory

A node keeps its stem in a window of nine bytes, beside the length of the whole stem, which is
a number of 32 bits.  The window is never cleared: behind the bytes of a shorter stem those of
earlier stems are left, and nothing may be read there.

The three operations of this module write to windows byte by byte: `set` copies a stem into a
window, `cut` moves what comes after a branch byte to the beginning of the window, and `absorb`
makes a new window of two stems and the byte between them.  Where the window does not reach, the
bytes come from a key.
-/
import RadixIndex.Dynamic.Header

namespace RadixIndex.Dynamic

/-- The stem of a node in memory. -/
structure Window where
  /-- The length of the whole stem. -/
  length : UInt32
  /-- The beginning of the stem, and after it what is left over. -/
  bytes : Vector UInt8 inlineCapacity

namespace Window

/-- The window of a new node. -/
def empty : Window := ⟨0, Vector.replicate inlineCapacity 0⟩

/-- The bytes in the window that belong to the stem. -/
def inline (w : Window) : Key := w.bytes.toList.take (min w.length.toNat inlineCapacity)

/-- The stem in the window. -/
def toStem (w : Window) : Stem where
  length := w.length.toNat
  inline := w.inline
  inline_length := by
    rw [inline, List.length_take, Vector.length_toList, Nat.min_eq_left (Nat.min_le_right _ _)]

/-- The bytes with `part` in the place of those from `start` on. -/
def copyTo (bytes : Vector UInt8 inlineCapacity) (start : Nat) (part : Key) :
    Except Fault (Vector UInt8 inlineCapacity) :=
  if h : start + part.length ≤ inlineCapacity then
    let copied := bytes.toList.take start ++ part ++ bytes.toList.drop (start + part.length)
    .ok ⟨copied.toArray, by simp [copied]; omega⟩
  else .error .range

/-- The window with a stem of `length` bytes that begins with the bytes given, which have to
reach as far as the window does. -/
def set (w : Window) (bytes : Key) (length : Nat) : Except Fault Window := do
  let part ← Key.slice bytes 0 (min length inlineCapacity)
  return ⟨UInt32.ofNat length, ← copyTo w.bytes 0 part⟩

/-- The byte of the stem at `mismatch`, and the window with what comes after it.  Of a stem that
is longer than the window the bytes are read from `stem`, which gives the whole stem. -/
def cut (w : Window) (mismatch : Nat) (stem : Except Fault Key) :
    Except Fault (UInt8 × Window) := do
  let length := w.length.toNat
  if length ≤ mismatch then
    .error .underflow
  let remaining := length - mismatch - 1
  if length ≤ inlineCapacity then
    let branch ← Key.byteAt w.bytes.toList mismatch
    let part ← Key.slice w.bytes.toList (mismatch + 1) length
    return (branch, ⟨UInt32.ofNat remaining, ← copyTo w.bytes 0 part⟩)
  else
    let stem ← stem
    let part ← Key.slice stem (mismatch + 1) (mismatch + 1 + min remaining inlineCapacity)
    let bytes ← copyTo w.bytes 0 part
    return (← Key.byteAt stem mismatch, ⟨UInt32.ofNat remaining, bytes⟩)

/-- The bytes with `part` after those in use, and how many are in use then.  Nothing is copied
when there is no room left. -/
def copyNext (bytes : Vector UInt8 inlineCapacity) (used : Nat) (part : Key) :
    Except Fault (Vector UInt8 inlineCapacity × Nat) :=
  if used < inlineCapacity then do
    return (← copyTo bytes used part, used + part.length)
  else
    return (bytes, used)

/-- The window with the stem of `parent` and `byte` before its own stem. -/
def absorb (w parent : Window) (byte : UInt8) : Except Fault Window := do
  let kept := min parent.length.toNat inlineCapacity
  let first ← copyNext empty.bytes 0 (parent.bytes.toList.take kept)
  let second ← copyNext first.1 first.2 [byte]
  let own := min w.length.toNat (inlineCapacity - second.2)
  let third ← copyNext second.1 second.2 (w.bytes.toList.take own)
  let length := w.length.toNat + (parent.length.toNat + 1)
  if length < UInt32.size then
    return ⟨UInt32.ofNat length, third.1⟩
  else
    .error .range

end Window

end RadixIndex.Dynamic
