/-
# Key loaders

The index stores records and no keys.  Wherever it needs the key of a record it
asks a `Loader` for it, naming the length that the key is to have.  A loader is
a function, so the same record always has the same key, and the key it gives has
the length asked for (`Loader.length_load`).
-/
import RadixIndex.Key

namespace RadixIndex

/-- The way from a record to its key of a given length. -/
structure Loader where
  load : Record → Nat → Key
  length_load : ∀ (r : Record) (n : Nat), (load r n).length = n

namespace Loader

/-- The key of `n` bytes of the record `r`, for any `n` that is asked for: it stops
with a fault when no memory holds so many bytes. -/
def key (L : Loader) (r : Record) (n : Nat) : Except Fault Key :=
  if n ≤ Key.maxLength then .ok (L.load r n) else .error .memory

/-- The `n` low-order base-256 digits of `v`, most significant first. -/
def digits : (n v : Nat) → Key
  | 0, _ => []
  | n + 1, v => UInt8.ofNat (v >>> (8 * n)) :: digits n v

theorem length_digits (n v : Nat) : (digits n v).length = n := by
  induction n with
  | zero => rfl
  | succ n ih => simp [digits, ih]

/-- The record is the key: an unsigned number, written big-endian at the end of
the key.  Longer keys begin with zeros; shorter keys keep the low-order bytes. -/
def bigEndian : Loader where
  load r n := digits n r.toNat
  length_load r n := length_digits n r.toNat

/-- The key of a record is the key that `L` gives to `f` of it. -/
def comap (f : Record → Record) (L : Loader) : Loader where
  load r n := L.load (f r) n
  length_load r n := L.length_load (f r) n

/-- The big-endian key of the record's remainder by `m`. -/
def modulo (m : UInt64) : Loader := bigEndian.comap (· % m)

/-- The big-endian key of the record without its `bits` low-order bits. -/
def shifted (bits : Nat) : Loader :=
  bigEndian.comap fun r => UInt64.ofNat (r.toNat >>> bits)

/-- The first `n` bytes of `row`, filled up with zeros. -/
def fit (n : Nat) (row : Key) : Key := (row ++ List.replicate n 0).take n

theorem length_fit (n : Nat) (row : Key) : (fit n row).length = n := by
  simp [fit]

/-- The key of record `r` is row `r` of a table, counted round and round. -/
def table (rows : Array Key) : Loader where
  load r n := fit n (rows.getD (r.toNat % rows.size) [])
  length_load _ n := length_fit n _

/-- Whether the leaf `r` holds `key`, when the first `depth` bytes of `key` are
already known to agree. -/
def matchesFrom (L : Loader) (r : Record) (key : Key) (depth : Nat) : Bool :=
  decide (key.length ≤ depth) || (L.load r key.length).drop depth == key.drop depth

end Loader

/-- An unsigned number as a key of eight bytes. -/
def Key.ofRecord (r : Record) : Key := Loader.bigEndian.load r 8

end RadixIndex
