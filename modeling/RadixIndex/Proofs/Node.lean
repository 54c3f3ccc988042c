/-
# Sound nodes

A node speaks about its children in several ways: it lists them, it finds them by
their bytes, it counts them.  In a *sound* node these agree.  `Node.Sound` has the
four facts that this takes, said of the list of slots in use; what they come to is
said of the list of children:

    mem_children           the children are what is in the slots in use
    children_ordered       their bytes ascend, so no byte comes twice
    find_eq_some           a byte finds its child and nothing else
    children_eq_of_mem     a list of children is known by its members

`LawfulHeader` is the one thing asked of a family of headers: with ascending bytes,
finding goes by the list of slots.
-/
import RadixIndex.Proofs.Slots
import RadixIndex.Tree

namespace RadixIndex

/-! ## Sound nodes -/

/-- Finding goes by the list of slots in use. -/
class LawfulHeader (H : Type) [NodeHeader H] : Prop where
  find_eq_some : ∀ {h : H} {occupied : Fin (NodeHeader.width h) → Bool} {b : UInt8}
    {i : Fin (NodeHeader.width h)}, OrderedBy Prod.fst (NodeHeader.slots h occupied) →
      (NodeHeader.find h occupied b = some i ↔ (b, i) ∈ NodeHeader.slots h occupied)

variable {H : Type} [NodeHeader H]

namespace Node

/-- Listing, finding and counting agree in the node. -/
structure Sound (n : Node H) : Prop where
  /-- The slots in use come in the order of their bytes. -/
  ordered : OrderedBy Prod.fst n.slots
  /-- No two bytes lead to the same slot. -/
  apart : (n.slots.map Prod.snd).Nodup
  /-- The slots in use are those that hold something. -/
  occupied : ∀ i, n.child i ≠ .empty ↔ i ∈ n.slots.map Prod.snd
  count : n.count = n.slots.length

theorem mem_children {n : Node H} {b : UInt8} {t : Tree H} :
    (b, t) ∈ n.children ↔ ∃ i, (b, i) ∈ n.slots ∧ n.child i = t := by
  simp only [children, List.mem_map, Prod.exists, Prod.mk.injEq]
  constructor
  · rintro ⟨_, i, hs, rfl, ht⟩
    exact ⟨i, hs, ht⟩
  · rintro ⟨i, hs, ht⟩
    exact ⟨b, i, hs, rfl, ht⟩

theorem length_children (n : Node H) : n.children.length = n.slots.length :=
  List.length_map _

namespace Sound

variable {n m : Node H} (hn : n.Sound)

include hn

theorem children_ordered : OrderedBy Prod.fst n.children := by
  rw [children, OrderedBy, List.pairwise_map]
  exact hn.ordered

theorem child_ne_empty {e : UInt8 × Tree H} (he : e ∈ n.children) : e.2 ≠ .empty := by
  obtain ⟨i, hs, ht⟩ := mem_children.mp he
  rw [← ht]
  exact (hn.occupied i).mpr (List.mem_map_of_mem hs)

theorem count_eq_length : n.count = n.children.length :=
  hn.count.trans n.length_children.symm

theorem children_eq_of_mem (hm : m.Sound) (h : ∀ e, e ∈ n.children ↔ e ∈ m.children) :
    n.children = m.children :=
  hn.children_ordered.ext hm.children_ordered h

theorem find_eq_some [LawfulHeader H] {b : UInt8} {i : Fin (NodeHeader.width n.header)} :
    n.find b = some i ↔ (b, i) ∈ n.slots :=
  LawfulHeader.find_eq_some hn.ordered

theorem mem_children_of_find [LawfulHeader H] {b : UInt8}
    {i : Fin (NodeHeader.width n.header)} (h : n.find b = some i) :
    (b, n.child i) ∈ n.children :=
  mem_children.mpr ⟨i, hn.find_eq_some.mp h, rfl⟩

theorem exists_find [LawfulHeader H] {b : UInt8} {t : Tree H} (h : (b, t) ∈ n.children) :
    ∃ i, n.find b = some i ∧ n.child i = t := by
  obtain ⟨i, hs, ht⟩ := mem_children.mp h
  exact ⟨i, hn.find_eq_some.mpr hs, ht⟩

theorem not_mem_of_find [LawfulHeader H] {b : UInt8} (h : n.find b = none) (t : Tree H) :
    (b, t) ∉ n.children := by
  intro hmem
  obtain ⟨i, hi, -⟩ := hn.exists_find hmem
  rw [h] at hi
  exact absurd hi nofun

end Sound

/-! ## Keyed nodes of either family -/

section Keyed

variable {n : Node H} {key : Fin (NodeHeader.width n.header) → UInt8}
  {used : Nat}

theorem sound_keyed (hs : n.slots = Keyed.slots key used) (hc : n.count = used)
    (hu : used ≤ NodeHeader.width n.header) :
    n.Sound ↔ Keyed.AscendingBelow key used ∧ ∀ i, n.child i ≠ .empty ↔ i.val < used := by
  constructor
  · intro h
    refine ⟨Keyed.slots_ordered.mp (hs ▸ h.ordered), ?_⟩
    intro i
    rw [h.occupied, hs, Keyed.mem_slots_snd]
  · rintro ⟨hasc, hocc⟩
    refine ⟨hs ▸ Keyed.slots_ordered.mpr hasc, hs ▸ Keyed.slots_apart, ?_, ?_⟩
    · intro i
      rw [hocc, hs, Keyed.mem_slots_snd]
    · rw [hc, hs, Keyed.length_slots hu]

theorem mem_children_keyed (hs : n.slots = Keyed.slots key used) {b : UInt8} {t : Tree H} :
    (b, t) ∈ n.children ↔ ∃ i, i.val < used ∧ key i = b ∧ n.child i = t := by
  simp only [mem_children, hs, Keyed.mem_slots, and_assoc]

end Keyed

/-! ## Putting another child in a slot -/

theorem isEmpty_eq_true {t : Tree H} : t.isEmpty = true ↔ t = .empty := by
  cases t <;> simp [Tree.isEmpty]

theorem not_isEmpty_eq_true {t : Tree H} : (!t.isEmpty) = true ↔ t ≠ .empty := by
  cases t <;> simp [Tree.isEmpty]

theorem setChild_eq (n : Node H) (i : Fin (NodeHeader.width n.header)) (t : Tree H) :
    n.setChild i t = ⟨n.header, setCell n.child i t⟩ := build_eq _ _

/-- A node that gets its own child back is the same node. -/
theorem setChild_self (h : H) (c : Fin (NodeHeader.width h) → Tree H)
    (i : Fin (NodeHeader.width h)) : (Node.mk h c).setChild i (c i) = ⟨h, c⟩ := by
  rw [setChild_eq, setCell_self]

section SetChild

variable {n : Node H} {i : Fin (NodeHeader.width n.header)} {t : Tree H}

theorem slots_setChild (hi : n.child i ≠ .empty) (ht : t ≠ .empty) :
    (Node.mk n.header (setCell n.child i t)).slots = n.slots := by
  refine congrArg (NodeHeader.slots n.header) (funext ?_)
  intro j
  show (!(setCell n.child i t j).isEmpty) = !(n.child j).isEmpty
  by_cases hj : j = i
  · rw [hj, setCell_same, Bool.eq_iff_iff, not_isEmpty_eq_true, not_isEmpty_eq_true]
    exact ⟨fun _ => hi, fun _ => ht⟩
  · rw [setCell_other _ _ _ hj]

theorem map_setCell {l : List (UInt8 × Fin (NodeHeader.width n.header))}
    (h : ∀ s ∈ l, s.2 ≠ i) :
    l.map (fun s => (s.1, setCell n.child i t s.2)) = l.map fun s => (s.1, n.child s.2) :=
  List.map_congr_left fun s hs => by rw [setCell_other _ _ _ (h s hs)]

/-- One child is replaced and everything else stays as it was. -/
theorem children_setChild (hn : n.Sound) {b : UInt8} (hs : (b, i) ∈ n.slots) :
    ∃ pre post, n.children = pre ++ (b, n.child i) :: post ∧
      ∀ t, t ≠ .empty → (n.setChild i t).children = pre ++ (b, t) :: post := by
  have hi : n.child i ≠ .empty := (hn.occupied i).mpr (List.mem_map_of_mem hs)
  obtain ⟨pre, post, hl⟩ := List.append_of_mem hs
  have hapart := hn.apart
  rw [hl, List.map_append, List.map_cons, List.nodup_append, List.nodup_cons] at hapart
  obtain ⟨-, ⟨hpost, -⟩, hpre⟩ := hapart
  refine ⟨pre.map fun s => (s.1, n.child s.2), post.map fun s => (s.1, n.child s.2), ?_,
    fun t ht => ?_⟩
  · rw [children, hl, List.map_append, List.map_cons]
  · have hpre' : ∀ s ∈ pre, s.2 ≠ i := fun s hmem he =>
      hpre s.2 (List.mem_map_of_mem hmem) i List.mem_cons_self he
    have hpost' : ∀ s ∈ post, s.2 ≠ i := fun s hmem he =>
      hpost (he ▸ List.mem_map_of_mem hmem : i ∈ post.map Prod.snd)
    rw [setChild_eq, children, slots_setChild hi ht, hl]
    show (pre ++ (b, i) :: post).map (fun s => (s.1, setCell n.child i t s.2)) = _
    rw [List.map_append, List.map_cons, setCell_same, map_setCell hpre', map_setCell hpost']

theorem Sound.setChild (hn : n.Sound) (hi : n.child i ≠ .empty) (ht : t ≠ .empty) :
    (n.setChild i t).Sound := by
  rw [setChild_eq]
  have hslots := slots_setChild hi ht
  refine ⟨?_, ?_, ?_, ?_⟩
  · rw [hslots]
    exact hn.ordered
  · rw [hslots]
    exact hn.apart
  · intro j
    rw [hslots, ← hn.occupied j]
    show setCell n.child i t j ≠ .empty ↔ n.child j ≠ .empty
    by_cases hj : j = i
    · rw [hj, setCell_same]
      exact ⟨fun _ => hi, fun _ => ht⟩
    · rw [setCell_other _ _ _ hj]
  · rw [hslots]
    exact hn.count

/-- The byte of the slot finds it when the child in it has been replaced. -/
theorem find_setChild [LawfulHeader H] (hn : n.Sound) {b : UInt8} (hs : (b, i) ∈ n.slots)
    (ht : t ≠ .empty) : (Node.mk n.header (setCell n.child i t)).find b = some i := by
  have hi : n.child i ≠ .empty := (hn.occupied i).mpr (List.mem_map_of_mem hs)
  have hset := hn.setChild hi ht
  rw [setChild_eq] at hset
  refine hset.find_eq_some.mpr ?_
  rw [slots_setChild hi ht]
  exact hs

end SetChild

end Node

end RadixIndex
