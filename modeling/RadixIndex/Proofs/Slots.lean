/-
# The slots of keyed and of direct nodes

Both ways of finding slots are said by what they find: `mem_slots` names the
members of the list of slots in use, and everything else about the list (that its
bytes ascend, that no slot comes twice, which slot a byte leads to) follows from
the membership and the order of the slot numbers.

The one thing a keyed node does not get for free is the order of its key bytes,
so it is a hypothesis here, `AscendingBelow`, and an invariant further on.
-/
import RadixIndex.Proofs.Ordered
import RadixIndex.Tree.Slots

namespace RadixIndex

theorem mem_inUse {n used : Nat} {i : Fin n} : i ∈ inUse n used ↔ i.val < used := by
  rw [inUse, List.mem_take_iff_getElem]
  constructor
  · rintro ⟨j, hj, rfl⟩
    simp only [List.getElem_finRange, Fin.val_cast]
    omega
  · intro h
    exact ⟨i.val, by rw [List.length_finRange]; omega, by simp⟩

theorem inUse_ascending (n used : Nat) : (inUse n used).Pairwise (· < ·) :=
  (List.pairwise_lt_finRange n).take

theorem length_inUse {n used : Nat} (h : used ≤ n) : (inUse n used).length = used := by
  simp [inUse, h]

theorem getElem_inUse {n used i : Nat} (h : i < (inUse n used).length) :
    ((inUse n used)[i]).val = i := by
  simp [inUse]

/-! ## Changing one cell -/

section Cells

variable {n : Nat} {α : Type} (cell : Fin n → α) (i : Fin n) (x : α)

@[simp]
theorem setCell_same : setCell cell i x i = x := if_pos rfl

theorem setCell_other {j : Fin n} (h : j ≠ i) : setCell cell i x j = cell j := if_neg h

/-- Putting back what is there changes nothing. -/
theorem setCell_self : setCell cell i (cell i) = cell := by
  funext j
  by_cases hj : j = i
  · rw [hj, setCell_same]
  · rw [setCell_other _ _ _ hj]

/-- Of two changes to one cell the second counts. -/
theorem setCell_setCell (y : α) : setCell (setCell cell i x) i y = setCell cell i y := by
  funext j
  by_cases hj : j = i
  · rw [hj, setCell_same, setCell_same]
  · rw [setCell_other _ _ _ hj, setCell_other _ _ _ hj, setCell_other _ _ _ hj]

end Cells

/-! ## Keyed nodes -/

namespace Keyed

variable {n : Nat} {key : Fin n → UInt8} {used : Nat}

/-- The key bytes of the slots in use ascend with the numbers of the slots. -/
def AscendingBelow (key : Fin n → UInt8) (used : Nat) : Prop :=
  ∀ i j : Fin n, i < j → j.val < used → key i < key j

theorem mem_slots {b : UInt8} {i : Fin n} :
    (b, i) ∈ slots key used ↔ i.val < used ∧ key i = b := by
  simp only [slots, List.mem_map, Prod.mk.injEq, mem_inUse]
  constructor
  · rintro ⟨j, hj, rfl, rfl⟩
    exact ⟨hj, rfl⟩
  · rintro ⟨hi, rfl⟩
    exact ⟨i, hi, rfl, rfl⟩

theorem length_slots (h : used ≤ n) : (slots key used).length = used := by
  rw [slots, List.length_map, length_inUse h]

theorem slots_apart : ((slots key used).map Prod.snd).Nodup := by
  rw [slots, List.map_map]
  exact List.map_id _ ▸ (inUse_ascending n used).imp fun h => Fin.ne_of_lt h

theorem mem_slots_snd {i : Fin n} : i ∈ (slots key used).map Prod.snd ↔ i.val < used := by
  simp only [List.mem_map, Prod.exists, mem_slots]
  constructor
  · rintro ⟨_, _, ⟨h, -⟩, rfl⟩
    exact h
  · intro h
    exact ⟨key i, i, ⟨h, rfl⟩, rfl⟩

theorem slots_ordered : OrderedBy Prod.fst (slots key used) ↔ AscendingBelow key used := by
  rw [slots, OrderedBy, List.pairwise_map]
  constructor
  · intro h i j hij hj
    have hlt : j.val < (inUse n used).length := by
      simp only [inUse, List.length_take, List.length_finRange]
      omega
    have hget := List.pairwise_iff_getElem.mp h i.val j.val (Nat.lt_trans hij hlt) hlt hij
    have hi := Fin.ext (getElem_inUse (Nat.lt_trans hij hlt)) (b := i)
    have hj := Fin.ext (getElem_inUse hlt) (b := j)
    rwa [hi, hj] at hget
  · intro h
    exact (inUse_ascending n used).imp_of_mem fun _ hj hij => h _ _ hij (mem_inUse.mp hj)

theorem key_injective (h : AscendingBelow key used) {i j : Fin n} (hi : i.val < used)
    (hj : j.val < used) (he : key i = key j) : i = j := by
  rcases Nat.lt_trichotomy i.val j.val with hlt | heq | hgt
  · exact absurd (he ▸ h i j hlt hj) (UInt8.lt_irrefl _)
  · exact Fin.ext heq
  · exact absurd (he ▸ h j i hgt hi) (UInt8.lt_irrefl _)

theorem find_eq_some (h : AscendingBelow key used) {b : UInt8} {i : Fin n} :
    find key used b = some i ↔ (b, i) ∈ slots key used := by
  rw [mem_slots]
  constructor
  · intro hf
    exact ⟨mem_inUse.mp (List.mem_of_find?_eq_some hf), by simpa using List.find?_some hf⟩
  · rintro ⟨hi, hb⟩
    cases hf : find key used b with
    | none =>
        have := List.find?_eq_none.mp hf i (mem_inUse.mpr hi)
        exact absurd (beq_iff_eq.mpr hb) this
    | some j =>
        have hj := mem_inUse.mp (List.mem_of_find?_eq_some hf)
        have hkey : key j = b := by simpa using List.find?_some hf
        rw [key_injective h hj hi (hkey.trans hb.symm)]

/-! The place for a new byte is where the larger bytes begin. -/

theorem place_le (b : UInt8) : place key used b ≤ used := by
  rw [place]
  split
  · rename_i i hf
    exact Nat.le_of_lt (mem_inUse.mp (List.mem_of_find?_eq_some hf))
  · exact Nat.le_refl _

theorem lt_key_of_place_le (h : AscendingBelow key used) {b : UInt8} {i : Fin n}
    (hp : place key used b ≤ i.val) (hi : i.val < used) : b < key i := by
  rw [place] at hp
  split at hp
  · rename_i j hf
    have hj : b < key j := by simpa using List.find?_some hf
    rcases Nat.lt_or_eq_of_le hp with hlt | heq
    · exact UInt8.lt_trans hj (h j i hlt hi)
    · exact Fin.ext heq ▸ hj
  · omega

theorem key_le_of_lt_place {b : UInt8} {i : Fin n} (hp : i.val < place key used b) :
    key i ≤ b := by
  have hi : i.val < used := Nat.lt_of_lt_of_le hp (place_le b)
  rw [place] at hp
  split at hp
  · rename_i j hf
    obtain ⟨-, pre, post, hl, hpre⟩ := List.find?_eq_some_iff_append.mp hf
    have hmem : i ∈ pre := by
      have hin : i ∈ pre ++ j :: post := hl ▸ mem_inUse.mpr hi
      rcases List.mem_append.mp hin with hin | hin
      · exact hin
      · have hasc := hl ▸ inUse_ascending n used
        have := (List.pairwise_cons.mp (List.pairwise_append.mp hasc).2.1).1
        rcases List.mem_cons.mp hin with rfl | hin
        · exact absurd hp (Nat.lt_irrefl _)
        · exact absurd (this i hin) (Nat.lt_asymm hp)
    simpa using hpre i hmem
  · rename_i hf
    simpa using List.find?_eq_none.mp hf i (mem_inUse.mpr hi)

end Keyed

/-! ## Direct nodes -/

namespace Direct

variable {occupied : Fin 256 → Bool}

theorem mem_slots {b : UInt8} {i : Fin 256} :
    (b, i) ∈ slots occupied ↔ occupied i = true ∧ UInt8.ofFin i = b := by
  simp only [slots, List.mem_map, List.mem_filter, List.mem_finRange, true_and, Prod.mk.injEq]
  constructor
  · rintro ⟨j, hj, rfl, rfl⟩
    exact ⟨hj, rfl⟩
  · rintro ⟨hi, rfl⟩
    exact ⟨i, hi, rfl, rfl⟩

theorem slots_apart : ((slots occupied).map Prod.snd).Nodup := by
  rw [slots, List.map_map]
  exact List.map_id _ ▸ (List.nodup_finRange 256).filter _

theorem mem_slots_snd {i : Fin 256} :
    i ∈ (slots occupied).map Prod.snd ↔ occupied i = true := by
  simp only [List.mem_map, Prod.exists, mem_slots]
  constructor
  · rintro ⟨_, _, ⟨h, -⟩, rfl⟩
    exact h
  · intro h
    exact ⟨UInt8.ofFin i, i, ⟨h, rfl⟩, rfl⟩

theorem slots_ordered : OrderedBy Prod.fst (slots occupied) := by
  rw [slots, OrderedBy, List.pairwise_map]
  exact ((List.pairwise_lt_finRange 256).filter _).imp fun h => UInt8.ofFin_lt_iff_lt.mpr h

theorem find_eq_some {b : UInt8} {i : Fin 256} :
    find occupied b = some i ↔ (b, i) ∈ slots occupied := by
  rw [mem_slots, find]
  split
  · rename_i h
    constructor
    · intro he
      cases he
      exact ⟨h, UInt8.ofFin_toFin b⟩
    · rintro ⟨-, rfl⟩
      rfl
  · rename_i h
    refine ⟨fun he => absurd he nofun, fun ⟨ho, hb⟩ => absurd ?_ h⟩
    rw [← hb]
    exact ho

end Direct

end RadixIndex
