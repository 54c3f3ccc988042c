/-
# Readings of a stem see the true stem

Of a stem longer than nine bytes a node keeps only the beginning, and whoever needs the rest
reads it from the key of the smallest leaf, from an offset that was counted on the way down.
In a tree that writes have made this gives the bytes that the keys of all leaves below the node
have at its offset (`TrueStem`), whatever splits and removals the node has been through; so
what is read of a long stem is what is read of a short one.

The invariant is that of the tree.  Every node stands where its offset says
(`Tree.Fits.stands_of_mem_placed`), and there the readings are known (`Proofs/Stem`).
-/
import RadixIndex.Proofs.Beginning
import RadixIndex.Proofs.Dynamic.Refines
import RadixIndex.Proofs.Stem

namespace RadixIndex

namespace Dynamic.Node

/-- At the offset `depth` of keys of `n` bytes, `stem` is what all keys below the node have in
common for as many bytes as the node has down for its stem, and every reading of the stem goes
by these bytes, whether they are all kept or not. -/
structure TrueStem (L : Loader) (n depth : Nat) (nd : Node) (stem : Key) : Prop where
  length_eq : stem.length = nd.stemLength
  /-- The keys go on after the stem. -/
  room : depth + stem.length < n
  kept_eq : nd.stemBytes = stem.take inlineCapacity
  exists_leaf : ∃ r, r ∈ nd.toTree.records
  leaf_eq : ∀ r ∈ nd.toTree.records, ((L.load r n).drop depth).take nd.stemLength = stem
  fullStem_eq : nd.fullStem L depth n = .ok stem
  stemMatch_eq : ∀ key : Key, key.length = n →
    nd.stemMatch L key depth = .ok (Key.commonLength stem (key.drop depth)) ∧
      ∀ k, k ≤ Key.commonLength stem (key.drop depth) ↔
        k ≤ stem.length ∧ stem.take k <+: key.drop depth
  compareStem_eq : ∀ key : Key, key.length = n →
    nd.compareStem L key depth = .ok (compare ((key.drop depth).take stem.length) stem)

variable {L : Loader} {n : Nat} {path stem : Key} {nd : Node}

/-- A node reads its true stem where it stands. -/
theorem trueStem_of_stands (hnd : nd.Stands L n path stem) :
    TrueStem L n path.length nd stem where
  length_eq := hnd.spells.length
  room := hnd.length_lt
  kept_eq := congrArg Stem.inline (spells_iff.mp hnd.spells)
  exists_leaf := hnd.fits.exists_mem
  leaf_eq r hr := by
    have hstem := hnd.stem_of_mem hr
    have hprefix := (Key.append_prefix_iff (Key.prefix_of_append hstem)).mp hstem
    rw [hnd.stemLength_eq]
    exact (List.prefix_iff_eq_take.mp hprefix).symm
  fullStem_eq := hnd.rooted.fullStem_eq
  stemMatch_eq key hk := ⟨hnd.rooted.stemMatch_eq hk, fun _ => Key.le_commonLength⟩
  compareStem_eq key hk := hnd.rooted.compareStem_eq hk

end Dynamic.Node

namespace DynamicTree

variable {L : Loader} {n : Nat} {t : DynamicTree}

/-- In every tree that writes make, each node reads its true stem at its offset, and the length
of it is a number of 32 bits. -/
theorem true_stems (hn : n < 2 ^ 32) (ht : t.Reachable L n) {depth : Nat} {nd : Dynamic.Node}
    (hnd : (depth, nd) ∈ t.root.placed 0) :
    ∃ stem, stem.length < 2 ^ 32 ∧ Dynamic.Node.TrueStem L n depth nd stem := by
  obtain ⟨m, hm⟩ := ht.refines
  rcases hm.fits with hroot | hroot
  · rw [hroot] at hnd
    exact absurd hnd List.not_mem_nil
  · obtain ⟨path, stem, rfl, hstands⟩ := hroot.stands_of_mem_placed hnd
    have hroom := hstands.length_lt
    exact ⟨stem, by omega, Dynamic.Node.trueStem_of_stands hstands⟩

/-- A stem of eleven bytes, which was split after ten and joined again. -/
theorem true_stems_of_split_and_joined :
    let L := Loader.modulo 65536
    let writes : List Write := [.insert (L.load 1 12) 1, .insert (L.load 2 12) 2,
      .insert (L.load 256 12) 256, .erase (L.load 256 12)]
    ∃ t, writeAll L (empty 12) writes = .ok t ∧ 12 < 2 ^ 32 ∧ t.Reachable L 12 ∧
      ∃ nd, (0, nd) ∈ t.root.placed 0 ∧ nd.stemBytes.length < nd.stemLength ∧
        ∃ stem, stem.length < 2 ^ 32 ∧ Dynamic.Node.TrueStem L 12 0 nd stem := by
  intro L writes
  obtain ⟨t, hrun, ht⟩ := exists_reachable L 12 writes (by decide)
  have hmade : (writeAll L (empty 12) writes).map (fun t => (t.root.placed 0).map fun x =>
      (x.1, x.2.stemBytes.length, x.2.stemLength)) = .ok [(0, 9, 11)] := by decide +kernel
  rw [hrun] at hmade
  have hplaced := Except.ok.inj hmade
  obtain ⟨⟨depth, nd⟩, hnd, hlengths⟩ :=
    List.mem_map.mp (hplaced ▸ List.mem_singleton_self ((0, 9, 11) : Nat × Nat × Nat))
  obtain ⟨rfl, hkept, hlength⟩ : depth = 0 ∧ nd.stemBytes.length = 9 ∧ nd.stemLength = 11 := by
    simpa using hlengths
  refine ⟨t, hrun, by decide, ht, nd, hnd, ?_, true_stems (by decide) ht hnd⟩
  rw [hkept, hlength]
  decide

end DynamicTree

end RadixIndex
