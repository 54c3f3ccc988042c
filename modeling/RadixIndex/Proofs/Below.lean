/-
# What is below a byte

A key that goes on with some byte can only be below the child under that byte, so
an operation that goes down to one child has seen all there is to see of the key
(`mem_below`, `not_mem_below`).  When that child is replaced, the records of the
node change below the byte and nowhere else (`mem_setChild`), so what an operation does
to the records of the child it does to those of the node (`mem_setChild_of`).
-/
import RadixIndex.Proofs.Records

namespace RadixIndex.Node.Stands

variable {H : Type} [NodeHeader H] {L : Loader} {n : Nat} {path stem : Key} {nd : Node H}
  {b : UInt8} {r : Record}

/-- A record whose key goes on with `b` is below the child under `b`. -/
theorem byte_eq (hnd : nd.Stands L n path stem) {e : UInt8 × Tree H} (he : e ∈ nd.children)
    (hre : r ∈ e.2.records) (hb : path ++ stem ++ [b] <+: L.load r n) : e.1 = b :=
  Key.byte_unique ((hnd.below e he).path_of_mem hre) hb

theorem mem_below (hnd : nd.Stands L n path stem) {t : Tree H} (ht : (b, t) ∈ nd.children)
    (hb : path ++ stem ++ [b] <+: L.load r n) : r ∈ nd.toTree.records ↔ r ∈ t.records := by
  rw [toTree, Tree.mem_records_node]
  constructor
  · rintro ⟨e, he, hre⟩
    obtain rfl := hnd.sound.children_ordered.unique he ht (hnd.byte_eq he hre hb)
    exact hre
  · intro hr
    exact ⟨_, ht, hr⟩

theorem not_mem_below (hnd : nd.Stands L n path stem) (hno : ∀ t, (b, t) ∉ nd.children)
    (hb : path ++ stem ++ [b] <+: L.load r n) : r ∉ nd.toTree.records := by
  intro hr
  obtain ⟨e, he, hre⟩ := (Tree.mem_records_node _ _).mp hr
  exact hno e.2 (hnd.byte_eq he hre hb ▸ he)

section SetChild

variable {i : Fin (NodeHeader.width nd.header)} {t : Tree H}

theorem setChild (hnd : nd.Stands L n path stem) (hs : (b, i) ∈ nd.slots)
    (ht : t.Fits L n (path ++ stem ++ [b])) : (nd.setChild i t).Stands L n path stem := by
  obtain ⟨pre, post, hold, hnew⟩ := Node.children_setChild hnd.sound hs
  have hnew := hnew t ht.ne_empty
  have hi : nd.child i ≠ .empty := (hnd.sound.occupied i).mpr (List.mem_map_of_mem hs)
  refine ⟨hnd.sound.setChild hi ht.ne_empty, ?_, ?_, ?_⟩
  · rw [Node.setChild_eq]
    exact ⟨hnd.spells.kept, hnd.spells.length⟩
  · have htwo := hnd.two_le
    rw [hold] at htwo
    simpa [hnew] using htwo
  · intro e he
    have hbelow := hnd.below e
    rw [hold] at hbelow
    rw [hnew] at he
    rcases List.mem_append.mp he with he | he
    · exact hbelow (List.mem_append_left _ he)
    · rcases List.mem_cons.mp he with rfl | he
      · exact ht
      · exact hbelow (List.mem_append_right _ (List.mem_cons_of_mem _ he))

theorem mem_setChild (hnd : nd.Stands L n path stem) (hs : (b, i) ∈ nd.slots)
    (ht : t.Fits L n (path ++ stem ++ [b])) : r ∈ (nd.setChild i t).toTree.records ↔
      r ∈ t.records ∨ r ∈ nd.toTree.records ∧ ¬ path ++ stem ++ [b] <+: L.load r n := by
  have hnd' := hnd.setChild hs ht
  obtain ⟨pre, post, hold, hnew⟩ := Node.children_setChild hnd.sound hs
  have hnew := hnew t ht.ne_empty
  have hin : (b, t) ∈ (nd.setChild i t).children := by
    rw [hnew]
    exact List.mem_append_right _ List.mem_cons_self
  by_cases hb : path ++ stem ++ [b] <+: L.load r n
  · rw [hnd'.mem_below hin hb]
    exact ⟨Or.inl, fun h => h.resolve_right fun hr => hr.2 hb⟩
  · -- Without the byte the record is below one of the other children.
    have hnot : ∀ s : Tree H, s.Fits L n (path ++ stem ++ [b]) → r ∉ s.records :=
      fun s hs hr => hb (hs.path_of_mem hr)
    have hold' : r ∉ (nd.child i).records :=
      hnot _ (hnd.below (b, nd.child i) (hold ▸ List.mem_append_right _ List.mem_cons_self))
    have hpre : ∀ (nd' : Node H) (s : Tree H), nd'.children = pre ++ (b, s) :: post →
        r ∉ s.records → (r ∈ nd'.toTree.records ↔ ∃ e ∈ pre ++ post, r ∈ e.2.records) := by
      intro nd' s hl hs
      rw [toTree, Tree.mem_records_node, hl]
      simp [or_and_right, exists_or, hs]
    rw [hpre _ _ hnew (hnot t ht), hpre _ _ hold hold']
    exact ⟨fun h => Or.inr ⟨h, hb⟩, fun h => (h.resolve_left (hnot t ht)).1⟩

/-- A change below the byte that concerns no other keys is the same change of the node. -/
theorem mem_setChild_of (hnd : nd.Stands L n path stem) (hs : (b, i) ∈ nd.slots)
    (ht : t.Fits L n (path ++ stem ++ [b])) {g : Record → Prop → Prop}
    (hchild : ∀ x, x ∈ t.records ↔ g x (x ∈ (nd.child i).records))
    (hother : ∀ x p, ¬ path ++ stem ++ [b] <+: L.load x n → (g x p ↔ p)) (x : Record) :
    x ∈ (nd.setChild i t).toTree.records ↔ g x (x ∈ nd.toTree.records) := by
  rw [hnd.mem_setChild hs ht]
  by_cases hx : path ++ stem ++ [b] <+: L.load x n
  · rw [hnd.mem_below (mem_children.mpr ⟨i, hs, rfl⟩) hx, ← hchild]
    constructor
    · rintro (hr | ⟨-, hnot⟩)
      · exact hr
      · exact absurd hx hnot
    · exact Or.inl
  · rw [hother x _ hx]
    constructor
    · rintro (hr | ⟨hr, -⟩)
      · exact absurd (ht.path_of_mem hr) hx
      · exact hr
    · intro hr
      exact Or.inr ⟨hr, hx⟩

end SetChild

end RadixIndex.Node.Stands
