/-
# Packing

Packing makes a node of a stem and a list of children.  Whatever shape the policy
asks for, and also in the loose shape, the node keeps the stem and lists the
children (`Loose.Makes`), as long as their bytes ascend and none of them is empty.
-/
import RadixIndex.Proofs.Listed
import RadixIndex.Proofs.Records
import RadixIndex.Static.Loose

namespace RadixIndex.Static

instance : LawfulHeader Header where
  find_eq_some {h occupied b i} hord := by
    cases h with
    | dense keys => exact Keyed.find_eq_some (Keyed.slots_ordered.mp hord)
    | denseStem stem keys => exact Keyed.find_eq_some (Keyed.slots_ordered.mp hord)
    | full count => exact Direct.find_eq_some
    | fullStem stem count => exact Direct.find_eq_some
    | loose stem keys => exact Keyed.find_eq_some (Keyed.slots_ordered.mp hord)

/-- A static node keeps the whole of its stem. -/
theorem Node.spells_iff {n : Node} {stem : Key} : n.Spells stem ↔ n.header.stem = stem :=
  ⟨fun h => h.kept.eq_of_length h.length.symm, fun h => h ▸ ⟨List.prefix_refl _, rfl⟩⟩

namespace Loose

/-- The children come in the order of their bytes and are something. -/
structure Proper (l : Loose) : Prop where
  ordered : OrderedBy Prod.fst l.entries
  filled : ∀ e ∈ l.entries, e.2 ≠ .empty

/-- The node has the stem and the children of the loose form. -/
structure Makes (l : Loose) (n : Node) : Prop where
  sound : n.Sound
  stem_eq : n.header.stem = l.stem
  children_eq : RadixIndex.Node.children n = l.entries

variable {l : Loose}

theorem length_keys (l : Loose) : l.keys.length = l.entries.length := List.length_map _

/-- The children by their numbers. -/
theorem lists_inOrder (l : Loose) : Lists l.keys.get l.inOrder l.entries := by
  refine ⟨Nat.le_of_eq l.length_keys.symm, ?_, ?_⟩
  · intro i h
    exact Prod.ext (List.getElem_map Prod.fst) rfl
  · intro i h
    exact absurd (l.length_keys ▸ i.isLt) (Nat.not_lt.mpr h)

theorem makes_keyed (hl : l.Proper) {n : Node} (hstem : n.header.stem = l.stem)
    {key : Fin (NodeHeader.width n.header) → UInt8}
    (hs : n.slots = Keyed.slots key l.entries.length) (hc : n.count = l.entries.length)
    (hlists : Lists key n.child l.entries) : l.Makes n := by
  obtain ⟨hsound, hchildren⟩ :=
    RadixIndex.Node.listed_keyed hs hc hlists hl.ordered hl.filled
  exact ⟨hsound, hstem, hchildren⟩

theorem toNode_makes (hl : l.Proper) : l.Makes l.toNode := by
  rw [toNode, RadixIndex.Node.build_eq]
  exact makes_keyed hl rfl (congrArg (Keyed.slots l.keys.get) l.length_keys) l.length_keys
    l.lists_inOrder

theorem dense_makes (hl : l.Proper) (hstem : l.stem = []) :
    l.Makes ⟨.dense l.keys, l.inOrder⟩ :=
  makes_keyed hl hstem.symm (congrArg (Keyed.slots l.keys.get) l.length_keys) l.length_keys
    l.lists_inOrder

theorem denseStem_makes (hl : l.Proper) : l.Makes ⟨.denseStem l.stem l.keys, l.inOrder⟩ :=
  makes_keyed hl rfl (congrArg (Keyed.slots l.keys.get) l.length_keys) l.length_keys
    l.lists_inOrder

/-- The children by their bytes. -/
theorem slots_byByte (hl : l.Proper) : (Direct.slots fun i => !(l.byByte i).isEmpty).map
    (fun s => (s.1, l.byByte s.2)) = l.entries :=
  listed_direct hl.ordered hl.filled

theorem length_slots_byByte (hl : l.Proper) :
    l.keys.length = (Direct.slots fun i => !(l.byByte i).isEmpty).length := by
  have hlength := congrArg List.length (slots_byByte hl)
  rw [List.length_map] at hlength
  rw [l.length_keys, hlength]

theorem occupied_byByte (b : Fin 256) : l.byByte b ≠ .empty ↔
    b ∈ (Direct.slots fun i => !(l.byByte i).isEmpty).map Prod.snd := by
  rw [Direct.mem_slots_snd, RadixIndex.Node.not_isEmpty_eq_true]

theorem full_makes (hl : l.Proper) (hstem : l.stem = []) :
    l.Makes ⟨.full l.keys.length, l.byByte⟩ :=
  ⟨⟨Direct.slots_ordered, Direct.slots_apart, occupied_byByte, length_slots_byByte hl⟩,
    hstem.symm, slots_byByte hl⟩

theorem fullStem_makes (hl : l.Proper) : l.Makes ⟨.fullStem l.stem l.keys.length, l.byByte⟩ :=
  ⟨⟨Direct.slots_ordered, Direct.slots_apart, occupied_byByte, length_slots_byByte hl⟩,
    rfl, slots_byByte hl⟩

theorem pack_makes (hl : l.Proper) (p : ShapePolicy) : l.Makes (l.pack p) := by
  rw [pack]
  split
  · split
    · rename_i hstem
      rw [RadixIndex.Node.build_eq]
      exact full_makes hl (List.isEmpty_iff.mp hstem)
    · rw [RadixIndex.Node.build_eq]
      exact fullStem_makes hl
  · split
    · rename_i hstem
      rw [RadixIndex.Node.build_eq]
      exact dense_makes hl (List.isEmpty_iff.mp hstem)
    · rw [RadixIndex.Node.build_eq]
      exact denseStem_makes hl

theorem isLoose_pack (l : Loose) (p : ShapePolicy) : (l.pack p).header.isLoose = false := by
  rw [pack]
  split <;> split <;> rw [RadixIndex.Node.build_eq] <;> rfl

end Loose

end RadixIndex.Static
