/-
# Contents

The contents of a tree are a finite map from keys to records.  A tree holds a map
when the records under each key are those that the map has there (`Holds`); since
records come in strict order of their keys, there is at most one under each key,
and the map has as many keys as the tree has records (`Holds.card_keys`).

What an operation does to the contents is read off the records before and after.
-/
import RadixIndex.Proofs.Records
import Mathlib.Data.Finmap

namespace RadixIndex

/-- A finite map from keys to records. -/
abbrev Contents : Type := Finmap fun _ : Key => Record

theorem Contents.eq_empty_of_card {m : Contents} (h : m.keys.card = 0) : m = ∅ := by
  refine Finmap.ext_lookup ?_
  intro k
  rw [Finmap.lookup_empty, Finmap.lookup_eq_none, ← Finmap.mem_keys, Finset.card_eq_zero.mp h]
  exact Finset.notMem_empty k

/-- In a union of two maps the first one has the say. -/
theorem Contents.lookup_union (m m' : Contents) (k : Key) :
    (m ∪ m').lookup k = (m.lookup k).or (m'.lookup k) := by
  by_cases hk : k ∈ m
  · obtain ⟨r, hr⟩ := Finmap.mem_iff.mp hk
    rw [Finmap.lookup_union_left hk, hr, Option.some_or]
  · rw [Finmap.lookup_union_right hk, Finmap.lookup_eq_none.mpr hk, Option.none_or]

/-- What is inserted hides what was there. -/
theorem Contents.lookup_insert_or (m : Contents) (k : Key) (r : Record) (key : Key) :
    (m.insert k r).lookup key = (if key = k then some r else none).or (m.lookup key) := by
  by_cases hkey : key = k
  · rw [hkey, Finmap.lookup_insert, if_pos rfl, Option.some_or]
  · rw [Finmap.lookup_insert_of_ne m hkey, if_neg hkey, Option.none_or]

/-- The map has the given records under their keys of `n` bytes. -/
def Holds (L : Loader) (n : Nat) (rs : List Record) (m : Contents) : Prop :=
  ∀ k r, m.lookup k = some r ↔ r ∈ rs ∧ L.load r n = k

namespace Holds

variable {L : Loader} {n : Nat} {rs rs' : List Record} {m m' : Contents} {k : Key} {r : Record}

theorem empty (L : Loader) (n : Nat) : Holds L n [] ∅ := by
  intro k r
  rw [Finmap.lookup_empty]
  exact ⟨nofun, fun h => absurd h.1 List.not_mem_nil⟩

theorem mem_iff (h : Holds L n rs m) : k ∈ m ↔ ∃ r ∈ rs, L.load r n = k := by
  rw [Finmap.mem_iff]
  exact exists_congr fun r => h k r

theorem not_mem_iff (h : Holds L n rs m) : k ∉ m ↔ ∀ r ∈ rs, L.load r n ≠ k := by
  rw [h.mem_iff]
  constructor
  · intro hno r hr hk
    exact hno ⟨r, hr, hk⟩
  · rintro hno ⟨r, hr, hk⟩
    exact hno r hr hk

/-- All keys have `n` bytes. -/
theorem length_of_mem (h : Holds L n rs m) (hk : k ∈ m) : k.length = n := by
  obtain ⟨r, -, rfl⟩ := h.mem_iff.mp hk
  exact L.length_load r n

/-- The keys of the map are the keys of `n` bytes that a lookup finds. -/
theorem coe_keys (h : Holds L n rs m) {get : Key → Option Record}
    (hget : ∀ k, k.length = n → get k = m.lookup k) :
    (m.keys : Set Key) = {k | k.length = n ∧ (get k).isSome} := by
  ext k
  rw [Finset.mem_coe, Finmap.mem_keys, Set.mem_ofPred_eq]
  constructor
  · intro hk
    have hlen := h.length_of_mem hk
    exact ⟨hlen, by rw [hget k hlen]; exact Finmap.lookup_isSome.mpr hk⟩
  · rintro ⟨hlen, hk⟩
    rw [hget k hlen] at hk
    exact Finmap.lookup_isSome.mp hk

/-- A record is there when a lookup finds it under its own key. -/
theorem get_load (h : Holds L n rs m) {get : Key → Option Record}
    (hget : ∀ k, k.length = n → get k = m.lookup k) (r : Record) :
    get (L.load r n) = some r ↔ r ∈ rs := by
  rw [hget _ (L.length_load r n), h, and_iff_left rfl]

theorem keys_eq (h : Holds L n rs m) : m.keys = (rs.map fun r => L.load r n).toFinset := by
  ext k
  rw [Finmap.mem_keys, h.mem_iff, List.mem_toFinset, List.mem_map]

theorem card_keys (h : Holds L n rs m) (hrs : L.Ordered n rs) : m.keys.card = rs.length := by
  have hnodup : (rs.map fun r => L.load r n).Nodup := by
    refine List.pairwise_map.mpr (List.Pairwise.imp ?_ hrs)
    intro x y hlt he
    have hlt : L.load x n < L.load y n := hlt
    rw [he] at hlt
    exact OrderedBy.irrefl hlt
  rw [h.keys_eq, List.toFinset_card_of_nodup hnodup, List.length_map]

theorem insert (h : Holds L n rs m)
    (hm : ∀ x, x ∈ rs' ↔ x = r ∨ x ∈ rs ∧ L.load x n ≠ L.load r n) :
    Holds L n rs' (m.insert (L.load r n) r) := by
  intro k x
  rw [hm]
  by_cases hk : k = L.load r n
  · subst hk
    rw [Finmap.lookup_insert, Option.some.injEq]
    constructor
    · rintro rfl
      exact ⟨Or.inl rfl, rfl⟩
    · rintro ⟨rfl | ⟨-, hne⟩, he⟩
      · rfl
      · exact absurd he hne
  · rw [Finmap.lookup_insert_of_ne m hk, h]
    constructor
    · rintro ⟨hx, rfl⟩
      exact ⟨Or.inr ⟨hx, hk⟩, rfl⟩
    · rintro ⟨rfl | ⟨hx, -⟩, he⟩
      · exact absurd he.symm hk
      · exact ⟨hx, he⟩

theorem erase (h : Holds L n rs m) (hm : ∀ x, x ∈ rs' ↔ x ∈ rs ∧ L.load x n ≠ k) :
    Holds L n rs' (m.erase k) := by
  intro k' x
  rw [hm]
  by_cases hk : k' = k
  · subst hk
    rw [Finmap.lookup_erase]
    exact ⟨nofun, fun ⟨⟨_, hne⟩, he⟩ => absurd he hne⟩
  · rw [Finmap.lookup_erase_ne hk, h]
    constructor
    · rintro ⟨hx, rfl⟩
      exact ⟨⟨hx, hk⟩, rfl⟩
    · rintro ⟨⟨hx, -⟩, he⟩
      exact ⟨hx, he⟩

/-- The records of two lists, those of the first where both have a key. -/
theorem union {rs'' : List Record} (h : Holds L n rs m) (h' : Holds L n rs' m')
    (hm : ∀ x, x ∈ rs'' ↔ x ∈ rs ∨ x ∈ rs' ∧ ∀ y ∈ rs, L.load y n ≠ L.load x n) :
    Holds L n rs'' (m ∪ m') := by
  intro k x
  rw [hm]
  by_cases hk : k ∈ m
  · rw [Finmap.lookup_union_left hk, h]
    constructor
    · rintro ⟨hx, he⟩
      exact ⟨Or.inl hx, he⟩
    · rintro ⟨hx | ⟨-, hno⟩, rfl⟩
      · exact ⟨hx, rfl⟩
      · exact absurd hk (h.not_mem_iff.mpr hno)
  · rw [Finmap.lookup_union_right hk, h']
    constructor
    · rintro ⟨hx, rfl⟩
      exact ⟨Or.inr ⟨hx, h.not_mem_iff.mp hk⟩, rfl⟩
    · rintro ⟨hx | ⟨hx, -⟩, rfl⟩
      · exact absurd (h.mem_iff.mpr ⟨x, hx, rfl⟩) hk
      · exact ⟨hx, rfl⟩

end Holds

end RadixIndex
