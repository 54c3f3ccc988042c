/-
# Moving cells

Putting a cell in between moves the later ones one place up, taking one out moves
them one place down.  With the key bytes and the children of a keyed node moved
alike, the node gains one entry at the place of the new byte (`place_keyed`), or
loses the one that is taken out (`erase_keyed`).
-/
import RadixIndex.Dynamic.Node
import RadixIndex.Proofs.Slots

namespace RadixIndex.Dynamic.Node

variable {w : Nat}

section ShiftIn

variable {α : Type} {cell : Fin w → α} {pos used : Nat} {x : α}

theorem shiftIn_at {i : Fin w} (h : i.val = pos) : shiftIn cell pos used x i = x := if_pos h

theorem shiftIn_before {i : Fin w} (h : i.val < pos) : shiftIn cell pos used x i = cell i := by
  rw [shiftIn, if_neg (Nat.ne_of_lt h), if_neg (by omega)]

theorem shiftIn_succ {i j : Fin w} (hij : j.val = i.val + 1) (hp : pos ≤ i.val)
    (hu : i.val < used) : shiftIn cell pos used x j = cell i := by
  rw [shiftIn, if_neg (by omega), if_pos (by omega)]
  exact congrArg cell (Fin.ext (by simp only; omega))

theorem shiftIn_beyond {i : Fin w} (hp : pos ≤ used) (h : used < i.val) :
    shiftIn cell pos used x i = cell i := by
  rw [shiftIn, if_neg (by omega), if_neg (by omega)]

/-- A place in use after the move is before, at or after the new one. -/
theorem shiftIn_cases {i : Fin w} (pos : Nat) (hi : i.val < used + 1) :
    i.val < pos ∨ i.val = pos ∨ ∃ j : Fin w, i.val = j.val + 1 ∧ pos ≤ j.val ∧ j.val < used := by
  rcases Nat.lt_trichotomy i.val pos with h | h | h
  · exact Or.inl h
  · exact Or.inr (Or.inl h)
  · exact Or.inr (Or.inr ⟨⟨i.val - 1, by omega⟩, by simp only; omega, by simp only; omega,
      by simp only; omega⟩)

end ShiftIn

section ShiftOut

variable {α : Type} {cell : Fin w → α} {pos used : Nat} {last : α}

theorem shiftOut_before {i : Fin w} (h : i.val < pos) :
    shiftOut cell pos used last i = cell i := by
  rw [shiftOut, dif_neg (by omega), if_neg (by omega)]

theorem shiftOut_from {i j : Fin w} (hij : j.val = i.val + 1) (hp : pos ≤ i.val)
    (hu : j.val < used) : shiftOut cell pos used last i = cell j := by
  rw [shiftOut, dif_pos (by omega)]
  exact congrArg cell (Fin.ext hij.symm)

theorem shiftOut_last {i : Fin w} (hp : pos ≤ i.val) (hu : i.val + 1 = used) :
    shiftOut cell pos used last i = last := by
  rw [shiftOut, dif_neg (by omega), if_pos ⟨hp, hu⟩]

theorem shiftOut_beyond {i : Fin w} (h : used ≤ i.val) :
    shiftOut cell pos used last i = cell i := by
  rw [shiftOut, dif_neg (by omega), if_neg (by omega)]

/-- A place in use after the move is before the gap, or its entry came from the next
place. -/
theorem shiftOut_cases {i : Fin w} (hw : used ≤ w) (hi : i.val < used - 1) (pos : Nat) :
    i.val < pos ∨ ∃ j : Fin w, j.val = i.val + 1 ∧ pos ≤ i.val ∧ j.val < used := by
  by_cases h : i.val < pos
  · exact Or.inl h
  · exact Or.inr ⟨⟨i.val + 1, by omega⟩, rfl, by omega, by simp only; omega⟩

end ShiftOut

/-! ## Entries of a keyed node -/

section Entries

variable {key : Fin w → UInt8} {cell : Fin w → Tree} {used : Nat}

/-- The key byte and the cell of a slot in use. -/
def Entry (key : Fin w → UInt8) (cell : Fin w → Tree) (used : Nat) (b : UInt8) (t : Tree) :
    Prop :=
  ∃ i : Fin w, i.val < used ∧ key i = b ∧ cell i = t

/-- What `Node.Sound` says of key bytes and cells. -/
structure Filled (key : Fin w → UInt8) (cell : Fin w → Tree) (used : Nat) : Prop where
  ascending : Keyed.AscendingBelow key used
  occupied : ∀ i, cell i ≠ .empty ↔ i.val < used

theorem place_keyed (hf : Filled key cell used) (hw : used < w) {b : UInt8} {t : Tree}
    (hb : ∀ i : Fin w, i.val < used → key i ≠ b) (ht : t ≠ .empty) {pos : Nat}
    (hpos : pos = Keyed.place key used b) :
    Filled (shiftIn key pos used b) (shiftIn cell pos used t) (used + 1) ∧
      ∀ b' t', Entry (shiftIn key pos used b) (shiftIn cell pos used t) (used + 1) b' t' ↔
        b' = b ∧ t' = t ∨ Entry key cell used b' t' := by
  have hple : pos ≤ used := hpos ▸ Keyed.place_le b
  have hbelow : ∀ i : Fin w, i.val < pos → key i < b := fun i h =>
    UInt8.lt_of_le_of_ne (Keyed.key_le_of_lt_place (hpos ▸ h)) (hb i (by omega))
  have habove : ∀ i : Fin w, pos ≤ i.val → i.val < used → b < key i := fun i h h' =>
    Keyed.lt_key_of_place_le hf.ascending (hpos ▸ h) h'
  refine ⟨⟨?_, ?_⟩, ?_⟩
  · intro i j hij hj
    have hij : i.val < j.val := hij
    rcases shiftIn_cases pos hj with h | h | ⟨j', hj', hp, hu⟩
    · rw [shiftIn_before h, shiftIn_before (Nat.lt_trans hij h)]
      exact hf.ascending i j hij (by omega)
    · rw [shiftIn_at h, shiftIn_before (by omega)]
      exact hbelow i (by omega)
    · rw [shiftIn_succ hj' hp hu]
      rcases shiftIn_cases pos (Nat.lt_trans hij hj) with h | h | ⟨i', hi', hp', hu'⟩
      · rw [shiftIn_before h]
        exact hf.ascending i j' (by show i.val < j'.val; omega) hu
      · rw [shiftIn_at h]
        exact habove j' hp hu
      · rw [shiftIn_succ hi' hp' hu']
        exact hf.ascending i' j' (by show i'.val < j'.val; omega) hu
  · intro i
    by_cases hi : i.val < used + 1
    · refine ⟨fun _ => hi, ?_⟩
      intro _
      rcases shiftIn_cases pos hi with h | h | ⟨j, hj, hp, hu⟩
      · rw [shiftIn_before h]
        exact (hf.occupied i).mpr (by omega)
      · rwa [shiftIn_at h]
      · rw [shiftIn_succ hj hp hu]
        exact (hf.occupied j).mpr hu
    · rw [shiftIn_beyond hple (by omega), hf.occupied]
      omega
  · intro b' t'
    constructor
    · rintro ⟨i, hi, rfl, rfl⟩
      rcases shiftIn_cases pos hi with h | h | ⟨j, hj, hp, hu⟩
      · rw [shiftIn_before h, shiftIn_before h]
        exact Or.inr ⟨i, by omega, rfl, rfl⟩
      · rw [shiftIn_at h, shiftIn_at h]
        exact Or.inl ⟨rfl, rfl⟩
      · rw [shiftIn_succ hj hp hu, shiftIn_succ hj hp hu]
        exact Or.inr ⟨j, hu, rfl, rfl⟩
    · rintro (⟨rfl, rfl⟩ | ⟨i, hi, rfl, rfl⟩)
      · exact ⟨⟨pos, by omega⟩, by simp only; omega, shiftIn_at rfl, shiftIn_at rfl⟩
      · by_cases hp : i.val < pos
        · exact ⟨i, by omega, shiftIn_before hp, shiftIn_before hp⟩
        · exact ⟨⟨i.val + 1, by omega⟩, by simp only; omega,
            shiftIn_succ rfl (by omega) hi, shiftIn_succ rfl (by omega) hi⟩

theorem erase_keyed (hf : Filled key cell used) (hw : used ≤ w) {i : Fin w} (hi : i.val < used)
    {key' : Fin w → UInt8} (hkey' : ∀ j, key' j = shiftOut key i used (key j) j) :
    Filled key' (shiftOut cell i used .empty) (used - 1) ∧
      ∀ b t, Entry key' (shiftOut cell i used .empty) (used - 1) b t ↔
        Entry key cell used b t ∧ b ≠ key i := by
  have hne : ∀ j : Fin w, j.val < used → j.val ≠ i.val → key j ≠ key i := fun j hj hji he =>
    hji (congrArg Fin.val (Keyed.key_injective hf.ascending hj hi he))
  refine ⟨⟨?_, ?_⟩, ?_⟩
  · intro j k hjk hk
    have hjk : j.val < k.val := hjk
    rw [hkey', hkey']
    rcases shiftOut_cases hw hk i with h | ⟨k', hk', hp, hu⟩
    · rw [shiftOut_before h, shiftOut_before (Nat.lt_trans hjk h)]
      exact hf.ascending j k hjk (by omega)
    · rw [shiftOut_from hk' hp hu]
      rcases shiftOut_cases hw (Nat.lt_trans hjk hk) i with h | ⟨j', hj', hp', hu'⟩
      · rw [shiftOut_before h]
        exact hf.ascending j k' (by show j.val < k'.val; omega) hu
      · rw [shiftOut_from hj' hp' hu']
        exact hf.ascending j' k' (by show j'.val < k'.val; omega) hu
  · intro j
    rcases Nat.lt_trichotomy (j.val + 1) used with hj | hj | hj
    · refine ⟨fun _ => by omega, ?_⟩
      intro _
      rcases shiftOut_cases hw (show j.val < used - 1 by omega) i with h | ⟨j', hj', hp, hu⟩
      · rw [shiftOut_before h]
        exact (hf.occupied j).mpr (by omega)
      · rw [shiftOut_from hj' hp hu]
        exact (hf.occupied j').mpr hu
    · rw [shiftOut_last (by omega) hj]
      exact ⟨fun h => absurd rfl h, fun h => by omega⟩
    · rw [shiftOut_beyond (by omega), hf.occupied]
      omega
  · intro b t
    constructor
    · rintro ⟨j, hj, rfl, rfl⟩
      rw [hkey']
      rcases shiftOut_cases hw hj i with h | ⟨j', hj', hp, hu⟩
      · rw [shiftOut_before h, shiftOut_before h]
        exact ⟨⟨j, by omega, rfl, rfl⟩, hne j (by omega) (by omega)⟩
      · rw [shiftOut_from hj' hp hu, shiftOut_from hj' hp hu]
        exact ⟨⟨j', hu, rfl, rfl⟩, hne j' hu (by omega)⟩
    · rintro ⟨⟨j, hj, rfl, rfl⟩, hb⟩
      rcases Nat.lt_trichotomy j.val i.val with h | h | h
      · exact ⟨j, by omega, by rw [hkey', shiftOut_before h], shiftOut_before h⟩
      · exact absurd (congrArg key (Fin.ext h)) hb
      · have hpred : j.val = (j.val - 1) + 1 := by omega
        refine ⟨⟨j.val - 1, by omega⟩, by simp only; omega, ?_, ?_⟩
        · rw [hkey', shiftOut_from hpred (by simp only; omega) hj]
        · exact shiftOut_from hpred (by simp only; omega) hj

end Entries

end RadixIndex.Dynamic.Node
