/-
# Numbers as keys

The big-endian loader writes a record in base 256, the most significant digit first, with as
many digits as the key has bytes.  So all rests on `compare_digits`:

    the digits of two numbers compare as the numbers do modulo `256 ^ n`

A record has eight digits.  A key with room for them loses nothing and is ordered as its record
is; a shorter key keeps the remainder, and two records have the same short key just when they
have the same remainder (`bigEndian_ordered`).

The key can also be read as eight bytes that are put at the end of it, with zeros before them or
without those for which there is no room (`bigEndian_load`).
-/
import RadixIndex.Proofs.Key
import Mathlib.Data.Nat.ModEq

namespace RadixIndex

/-- The bytes at the end of a key of `n` bytes: zeros come before them, or only the last `n` of
them find room. -/
def Key.atEnd (n : Nat) (bytes : Key) : Key :=
  if bytes.length ≤ n then List.replicate (n - bytes.length) 0 ++ bytes
  else bytes.drop (bytes.length - n)

namespace Loader

/-! ## Digits -/

theorem digits_zero (n : Nat) : digits n 0 = List.replicate n 0 := by
  induction n with
  | zero => rfl
  | succ n ih => simp [digits, ih, List.replicate_succ]

/-- More digits are those of what the fewer digits leave over, and then these. -/
theorem digits_add (k n v : Nat) : digits (k + n) v = digits k (v >>> (8 * n)) ++ digits n v := by
  induction k with
  | zero => simp [digits]
  | succ k ih =>
      have hshift : v >>> (8 * n) >>> (8 * k) = v >>> (8 * (k + n)) := by
        rw [← Nat.shiftRight_add]
        congr 1
        omega
      rw [Nat.succ_add, digits, digits, ih, hshift]
      simp

/-- The key of a record is its eight bytes at the end. -/
theorem bigEndian_load (r : Record) (n : Nat) :
    bigEndian.load r n = Key.atEnd n (Key.ofRecord r) := by
  have hlength : (Key.ofRecord r).length = 8 := length_digits 8 r.toNat
  rw [Key.atEnd, hlength]
  by_cases h : 8 ≤ n
  · have hrest : r.toNat >>> (8 * 8) = 0 := Nat.shiftRight_eq_zero _ _ r.toNat_lt
    have hdigits := digits_add (n - 8) 8 r.toNat
    rw [Nat.sub_add_cancel h, hrest, digits_zero] at hdigits
    rw [if_pos h]
    exact hdigits
  · have hn : 8 - n + n = 8 := by omega
    have hdigits : Key.ofRecord r = digits (8 - n) (r.toNat >>> (8 * n)) ++ digits n r.toNat := by
      rw [← digits_add, hn]
      rfl
    rw [if_neg h, hdigits, List.drop_left' (length_digits _ _)]
    rfl

example : bigEndian.load 0x0102 10 = [0, 0, 0, 0, 0, 0, 0, 0, 1, 2] := by decide

/-! ## Order -/

theorem compare_byte (v w : Nat) :
    compare (UInt8.ofNat v) (UInt8.ofNat w) = compare (v % 256) (w % 256) := by
  show compareOfLessAndEq _ _ = compareOfLessAndEq _ _
  simp [compareOfLessAndEq, UInt8.lt_iff_toNat_lt, ← UInt8.toNat_inj]

theorem compare_record (a b : Record) : compare a.toNat b.toNat = compare a b := by
  show compareOfLessAndEq _ _ = compareOfLessAndEq _ _
  simp only [compareOfLessAndEq, UInt64.lt_iff_toNat_lt, UInt64.toNat_inj]

/-- Of two numbers in two places each, the higher places decide first. -/
theorem compare_places {m x y r s : Nat} (hr : r < m) (hs : s < m) :
    compare (r + m * x) (s + m * y) = (compare x y).then (compare r s) := by
  rcases Nat.lt_trichotomy x y with h | rfl | h
  · have hle : m * (x + 1) ≤ m * y := Nat.mul_le_mul_left m h
    have hlt : r + m * x < s + m * y := by
      rw [Nat.mul_succ] at hle
      omega
    simp [Nat.compare_eq_lt.mpr h, Nat.compare_eq_lt.mpr hlt]
  · rw [Nat.compare_eq_eq.mpr rfl, Ordering.eq_then]
    show compareOfLessAndEq _ _ = compareOfLessAndEq _ _
    simp [compareOfLessAndEq]
  · have hle : m * (y + 1) ≤ m * x := Nat.mul_le_mul_left m h
    have hgt : s + m * y < r + m * x := by
      rw [Nat.mul_succ] at hle
      omega
    simp [Nat.compare_eq_gt.mpr h, Nat.compare_eq_gt.mpr hgt]

/-- The digits of two numbers are ordered as the numbers are, as far as they reach. -/
theorem compare_digits (n v w : Nat) :
    compare (digits n v) (digits n w) = compare (v % 256 ^ n) (w % 256 ^ n) := by
  induction n with
  | zero => simp [digits, Nat.mod_one]
  | succ n ih =>
      have hpos : 0 < 256 ^ n := Nat.pow_pos (by decide)
      have hshift : ∀ u : Nat, u >>> (8 * n) = u / 256 ^ n := fun u => by
        rw [Nat.shiftRight_eq_div_pow, Nat.pow_mul]
      calc compare (digits (n + 1) v) (digits (n + 1) w)
          = (compare (v / 256 ^ n % 256) (w / 256 ^ n % 256)).then
              (compare (v % 256 ^ n) (w % 256 ^ n)) := by
            rw [digits, digits, Key.compare_cons, compare_byte, ih, hshift, hshift]
        _ = compare (v % 256 ^ (n + 1)) (w % 256 ^ (n + 1)) := by
            rw [Nat.mod_pow_succ, Nat.mod_pow_succ,
              compare_places (Nat.mod_lt v hpos) (Nat.mod_lt w hpos)]

theorem digits_inj {n v w : Nat} : digits n v = digits n w ↔ v ≡ w [MOD 256 ^ n] := by
  rw [← Std.compare_eq_iff_eq, compare_digits, Nat.compare_eq_eq]
  rfl

theorem toNat_mod (r : Record) {n : Nat} (h : 8 ≤ n) : r.toNat % 256 ^ n = r.toNat := by
  have hlt : r.toNat < 256 ^ 8 := r.toNat_lt
  exact Nat.mod_eq_of_lt (Nat.lt_of_lt_of_le hlt (Nat.pow_le_pow_right (by decide) h))

/-- Keys of eight bytes and more are ordered as the records are, so that no two records have the
same key.  Shorter keys are ordered as the remainders, and those of two records are the same
just when the records are congruent. -/
theorem bigEndian_ordered (n : Nat) (a b : Record) :
    (8 ≤ n → compare (bigEndian.load a n) (bigEndian.load b n) = compare a b ∧
      (bigEndian.load a n = bigEndian.load b n ↔ a = b)) ∧
    (n < 8 → (bigEndian.load a n = bigEndian.load b n ↔ a.toNat ≡ b.toNat [MOD 256 ^ n]) ∧
      compare (bigEndian.load a n) (bigEndian.load b n) =
        compare (a.toNat % 256 ^ n) (b.toNat % 256 ^ n)) := by
  have hcompare : compare (bigEndian.load a n) (bigEndian.load b n) =
      compare (a.toNat % 256 ^ n) (b.toNat % 256 ^ n) := compare_digits n a.toNat b.toNat
  refine ⟨fun h => ?_, fun _ => ⟨digits_inj, hcompare⟩⟩
  rw [toNat_mod a h, toNat_mod b h, compare_record] at hcompare
  refine ⟨hcompare, ?_⟩
  rw [← Std.compare_eq_iff_eq, hcompare, Std.compare_eq_iff_eq]

/-- Two records that part at the last byte but one, in keys with that byte and without it. -/
theorem bigEndian_ordered_of_carry :
    let load (r : Record) (n : Nat) : Key := bigEndian.load r n
    (8 ≤ 10 ∧ compare (load 255 10) (load 256 10) = .lt ∧ load 255 10 ≠ load 256 10) ∧
      (1 < 8 ∧ load 1 1 = load 257 1 ∧ compare (load 255 1) (load 256 1) = .gt) := by
  intro load
  have hlong := (bigEndian_ordered 10 255 256).1 (by decide)
  have hsame := (bigEndian_ordered 1 1 257).2 (by decide)
  have hshort := (bigEndian_ordered 1 255 256).2 (by decide)
  refine ⟨⟨by decide, hlong.1.trans (by decide), ?_⟩, by decide, hsame.1.mpr (by decide),
    hshort.2.trans (by decide)⟩
  intro heq
  exact absurd (hlong.2.mp heq) (by decide)

end Loader

end RadixIndex
