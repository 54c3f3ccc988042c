/-
# Sound dynamic nodes

What it takes for a node of each layout to be sound, and what its children are:

    four, sixteen   the key bytes in use ascend, and the slots after them are empty
    fortyEight      no two bytes lead to the same slot, and the slots that no byte
                    leads to are empty
    full            nothing but the right count

The list of children of each layout is given by its members.
-/
import RadixIndex.Dynamic.Header
import RadixIndex.Proofs.Node
import Mathlib.Data.List.Nodup

namespace RadixIndex

/-! ## The table -/

namespace Dynamic.Layout

variable {table : Vector (Option (Fin 48)) 256}

theorem mem_tableSlots {b : UInt8} {i : Fin 48} :
    (b, i) ∈ tableSlots table ↔ table[b.toFin] = some i := by
  simp only [tableSlots, List.mem_filterMap, List.mem_finRange, true_and,
    Option.map_eq_some_iff, Prod.mk.injEq]
  constructor
  · rintro ⟨a, j, hj, rfl, rfl⟩
    exact hj
  · intro h
    exact ⟨b.toFin, i, h, UInt8.ofFin_toFin b, rfl⟩

theorem tableSlots_ordered : OrderedBy Prod.fst (tableSlots table) := by
  rw [tableSlots, OrderedBy, List.pairwise_filterMap]
  refine (List.pairwise_lt_finRange 256).imp ?_
  intro a b hab x hx y hy
  obtain ⟨_, _, rfl⟩ := Option.map_eq_some_iff.mp hx
  obtain ⟨_, _, rfl⟩ := Option.map_eq_some_iff.mp hy
  exact UInt8.ofFin_lt_iff_lt.mpr hab

theorem mem_tableSlots_snd {i : Fin 48} :
    i ∈ (tableSlots table).map Prod.snd ↔ ∃ b : UInt8, table[b.toFin] = some i := by
  simp only [List.mem_map, Prod.exists, mem_tableSlots]
  constructor
  · rintro ⟨b, _, h, rfl⟩
    exact ⟨b, h⟩
  · rintro ⟨b, h⟩
    exact ⟨b, i, h, rfl⟩

/-- No two bytes lead to the same slot. -/
def Injective (table : Vector (Option (Fin 48)) 256) : Prop :=
  ∀ (a b : UInt8) (i : Fin 48), table.get a.toFin = some i → table.get b.toFin = some i → a = b

theorem tableSlots_apart :
    ((tableSlots table).map Prod.snd).Nodup ↔ Injective table := by
  constructor
  · intro h a b i ha hb
    have := List.inj_on_of_nodup_map h (mem_tableSlots.mpr ha) (mem_tableSlots.mpr hb) rfl
    exact (Prod.mk.inj this).1
  · intro h
    refine List.Nodup.map_on ?_ tableSlots_ordered.nodup
    rintro ⟨a, i⟩ ha ⟨b, j⟩ hb (rfl : i = j)
    rw [h a b i (mem_tableSlots.mp ha) (mem_tableSlots.mp hb)]

end Dynamic.Layout

/-! ## The four layouts -/

namespace Dynamic

instance : LawfulHeader Header where
  find_eq_some {h occupied b i} hord := by
    obtain ⟨stem, layout⟩ := h
    cases layout with
    | four keys used => exact Keyed.find_eq_some (Keyed.slots_ordered.mp hord)
    | sixteen keys used => exact Keyed.find_eq_some (Keyed.slots_ordered.mp hord)
    | fortyEight table count => exact Layout.mem_tableSlots.symm
    | full count => exact Direct.find_eq_some

namespace Node

variable {stem : Stem}

section FortyEight

variable {table : Vector (Option (Fin 48)) 256} {count : Nat} {child : Fin 48 → Tree}

theorem sound_fortyEight :
    RadixIndex.Node.Sound (⟨⟨stem, .fortyEight table count⟩, child⟩ : Node) ↔
      Layout.Injective table ∧ (∀ i, child i ≠ .empty ↔ ∃ b : UInt8, table[b.toFin] = some i) ∧
        count = (Layout.tableSlots table).length := by
  constructor
  · intro h
    exact ⟨Layout.tableSlots_apart.mp h.apart,
      fun i => (h.occupied i).trans Layout.mem_tableSlots_snd, h.count⟩
  · rintro ⟨hinj, hocc, hc⟩
    exact ⟨Layout.tableSlots_ordered, Layout.tableSlots_apart.mpr hinj,
      fun i => (hocc i).trans Layout.mem_tableSlots_snd.symm, hc⟩

theorem mem_children_fortyEight {b : UInt8} {t : Tree} :
    (b, t) ∈ RadixIndex.Node.children (⟨⟨stem, .fortyEight table count⟩, child⟩ : Node) ↔
      ∃ i, table[b.toFin] = some i ∧ child i = t := by
  rw [RadixIndex.Node.mem_children]
  exact exists_congr fun i => and_congr_left fun _ => Layout.mem_tableSlots

end FortyEight

section Full

variable {count : Nat} {child : Fin 256 → Tree}

theorem sound_full : RadixIndex.Node.Sound (⟨⟨stem, .full count⟩, child⟩ : Node) ↔
    count = (Direct.slots fun i => !(child i).isEmpty).length := by
  constructor
  · intro h
    exact h.count
  · intro hc
    refine ⟨Direct.slots_ordered, Direct.slots_apart, ?_, hc⟩
    intro i
    show child i ≠ .empty ↔ i ∈ (Direct.slots _).map Prod.snd
    rw [Direct.mem_slots_snd, RadixIndex.Node.not_isEmpty_eq_true]

theorem mem_children_full {b : UInt8} {t : Tree} :
    (b, t) ∈ RadixIndex.Node.children (⟨⟨stem, .full count⟩, child⟩ : Node) ↔
      t ≠ .empty ∧ child b.toFin = t := by
  rw [RadixIndex.Node.mem_children]
  constructor
  · rintro ⟨i, hs, rfl⟩
    obtain ⟨ho, rfl⟩ := Direct.mem_slots.mp hs
    exact ⟨RadixIndex.Node.not_isEmpty_eq_true.mp ho, rfl⟩
  · rintro ⟨ht, rfl⟩
    exact ⟨b.toFin, Direct.mem_slots.mpr
      ⟨RadixIndex.Node.not_isEmpty_eq_true.mpr ht, UInt8.ofFin_toFin b⟩, rfl⟩

end Full

end Node

end Dynamic

end RadixIndex
