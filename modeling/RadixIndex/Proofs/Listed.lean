/-
# Nodes made of a list of children

A node is often made as a whole, from a list of children with ascending bytes: when
a dynamic node changes its layout, and when a static node is packed.  The list may
be laid out in three ways, by the number of the child (`listed_keyed`), by its byte
(`listed_direct`), or through a table; whichever way it is, the node that comes out
is sound and lists the children that went in.
-/
import RadixIndex.Proofs.Node

namespace RadixIndex

/-! ## Looking up a byte in a list -/

section Lookup

variable {α : Type} {l : List (UInt8 × α)} {b : UInt8} {x : α}

/-- If a byte comes at most once, looking it up finds it wherever it is. -/
theorem lookup_eq_some (hu : ∀ y z, (b, y) ∈ l → (b, z) ∈ l → y = z) :
    l.lookup b = some x ↔ (b, x) ∈ l := by
  induction l with
  | nil => simp
  | cons e l ih =>
      obtain ⟨a, y⟩ := e
      have hl := ih fun y z hy hz =>
        hu y z (List.mem_cons_of_mem _ hy) (List.mem_cons_of_mem _ hz)
      rw [List.lookup_cons, List.mem_cons, Prod.mk.injEq]
      cases hb : b == a with
      | true =>
          have hba := beq_iff_eq.mp hb
          constructor
          · intro h
            exact Or.inl ⟨hba, (Option.some.inj h).symm⟩
          · rintro (⟨-, rfl⟩ | h)
            · rfl
            · exact congrArg some (hu y x (hba ▸ List.mem_cons_self) (List.mem_cons_of_mem _ h))
      | false =>
          have hba : b ≠ a := beq_eq_false_iff_ne.mp hb
          simp only [hl, hba, false_and, false_or]

theorem OrderedBy.lookup_eq_some (h : OrderedBy Prod.fst l) :
    l.lookup b = some x ↔ (b, x) ∈ l :=
  RadixIndex.lookup_eq_some fun _ _ hy hz => (Prod.mk.inj (h.unique hy hz rfl)).2

end Lookup

variable {H : Type} [NodeHeader H] {l : List (UInt8 × Tree H)}

/-! ## By number -/

/-- Key bytes and cells, from the first on, hold what the list has. -/
structure Lists {w : Nat} (key : Fin w → UInt8) (cell : Fin w → Tree H)
    (l : List (UInt8 × Tree H)) : Prop where
  within : l.length ≤ w
  get : ∀ (i : Fin w) (h : i.val < l.length), (key i, cell i) = l[i.val]
  vacant : ∀ i : Fin w, l.length ≤ i.val → cell i = .empty

namespace Node

variable {n : Node H} {key : Fin (NodeHeader.width n.header) → UInt8} {used : Nat}

theorem listed_keyed (hs : n.slots = Keyed.slots key l.length) (hc : n.count = l.length)
    (hl : Lists key n.child l) (hord : OrderedBy Prod.fst l) (hne : ∀ e ∈ l, e.2 ≠ .empty) :
    n.Sound ∧ n.children = l := by
  have hkey : ∀ (i : Fin (NodeHeader.width n.header)) (h : i.val < l.length),
      key i = l[i.val].1 := fun i h => congrArg Prod.fst (hl.get i h)
  have hchild : ∀ (i : Fin (NodeHeader.width n.header)) (h : i.val < l.length),
      n.child i = l[i.val].2 := fun i h => congrArg Prod.snd (hl.get i h)
  have hsound : n.Sound := by
    refine (sound_keyed hs hc hl.within).mpr ⟨?_, fun i => ⟨?_, ?_⟩⟩
    · intro i j hij hj
      rw [hkey i (Nat.lt_trans hij hj), hkey j hj]
      exact List.pairwise_iff_getElem.mp hord _ _ _ _ hij
    · intro hi
      exact Nat.lt_of_not_le fun hle => hi (hl.vacant i hle)
    · intro hi
      rw [hchild i hi]
      exact hne _ (List.getElem_mem hi)
  refine ⟨hsound, hsound.children_ordered.ext hord ?_⟩
  rintro ⟨b, t⟩
  rw [mem_children_keyed hs, List.mem_iff_getElem]
  constructor
  · rintro ⟨i, hi, rfl, rfl⟩
    exact ⟨i.val, hi, (hl.get i hi).symm⟩
  · rintro ⟨i, hi, he⟩
    have hget := hl.get ⟨i, Nat.lt_of_lt_of_le hi hl.within⟩ hi
    rw [he, Prod.mk.injEq] at hget
    exact ⟨⟨i, _⟩, hi, hget⟩

/-- A sound keyed node lists its own children. -/
theorem Sound.lists (hn : n.Sound) (hs : n.slots = Keyed.slots key used)
    (hc : n.count = used) (hu : used ≤ NodeHeader.width n.header) :
    n.children.length = used ∧ Lists key n.child n.children := by
  have hlen : n.children.length = used := hn.count_eq_length.symm.trans hc
  have hlist : n.children = (inUse _ used).map fun i => (key i, n.child i) := by
    rw [children, hs, Keyed.slots, List.map_map]
    rfl
  refine ⟨hlen, hlen ▸ hu, ?_, ?_⟩
  · intro i h
    have hlt : i.val < (inUse (NodeHeader.width n.header) used).length := by
      rw [length_inUse hu]
      exact hlen ▸ h
    have hi := Fin.ext (getElem_inUse hlt) (b := i)
    simp only [hlist, List.getElem_map, hi]
  · intro i h
    rw [hlen] at h
    refine Classical.byContradiction ?_
    intro hne
    exact absurd ((((sound_keyed hs hc hu).mp hn).2 i).mp hne) (Nat.not_lt.mpr h)

end Node

/-! ## By byte -/

/-- The cells of a node with a slot for every byte. -/
def byByte (l : List (UInt8 × Tree H)) (b : Fin 256) : Tree H :=
  (l.lookup (UInt8.ofFin b)).getD .empty

theorem byByte_eq (hord : OrderedBy Prod.fst l) {b : Fin 256} {t : Tree H} (ht : t ≠ .empty) :
    byByte l b = t ↔ (UInt8.ofFin b, t) ∈ l := by
  rw [← hord.lookup_eq_some, byByte]
  cases l.lookup (UInt8.ofFin b) with
  | none => exact ⟨fun h => absurd h.symm ht, nofun⟩
  | some s => simp

theorem listed_direct (hord : OrderedBy Prod.fst l) (hne : ∀ e ∈ l, e.2 ≠ .empty) :
    (Direct.slots fun i => !(byByte l i).isEmpty).map (fun s => (s.1, byByte l s.2)) = l := by
  refine OrderedBy.ext (List.pairwise_map.mpr Direct.slots_ordered) hord ?_
  rintro ⟨b, t⟩
  simp only [List.mem_map, Prod.exists, Direct.mem_slots, Node.not_isEmpty_eq_true,
    Prod.mk.injEq]
  constructor
  · rintro ⟨_, i, ⟨hi, rfl⟩, rfl, rfl⟩
    exact (byByte_eq hord hi).mp rfl
  · intro h
    have hget : byByte l b.toFin = t :=
      (byByte_eq hord (hne _ h)).mpr ((UInt8.ofFin_toFin b).symm ▸ h)
    exact ⟨b, b.toFin, ⟨hget ▸ hne _ h, UInt8.ofFin_toFin b⟩, rfl, hget⟩

end RadixIndex
