/-
# Firm trees have no issues

The verifier of dynamic trees looks at what nodes keep beside their children: key bytes,
a table, a counter.  In a sound node all of it goes together (`Node.finderIssues_eq_nil`),
and a firm tree has nodes of the right sizes, with the stems that their keys have.  So it
finds nothing wrong with a tree that holds a map (`Refines.verifyWith_eq`).
-/
import RadixIndex.Proofs.Dynamic.Refines
import Mathlib.Data.List.FinRange

namespace RadixIndex

/-! ## The slots that hold something -/

/-- As many slots of a sound node hold something as it counts children. -/
theorem Node.Sound.countP_filled {H : Type} [NodeHeader H] {nd : Node H} (hnd : nd.Sound) :
    (List.ofFn nd.child).countP (fun t => !t.isEmpty) = nd.count := by
  have hmem : ∀ i, i ∈ (List.finRange _).filter (fun i => !(nd.child i).isEmpty) ↔
      i ∈ nd.slots.map Prod.snd := by
    intro i
    rw [List.mem_filter, Node.not_isEmpty_eq_true, hnd.occupied, and_iff_right]
    exact List.mem_finRange i
  have hperm : ((List.finRange _).filter fun i => !(nd.child i).isEmpty).Perm
      (nd.slots.map Prod.snd) :=
    (List.perm_ext_iff_of_nodup ((List.nodup_finRange _).filter _) hnd.apart).mpr hmem
  rw [List.ofFn_eq_map, List.countP_map, List.countP_eq_length_filter, hnd.count,
    ← List.length_map (f := Prod.snd)]
  exact hperm.length_eq

/-! ## What nodes keep to find their children -/

theorem Keyed.map_fst_slots {n : Nat} (keys : Vector UInt8 n) (used : Nat) :
    (Keyed.slots keys.get used).map Prod.fst = keys.toList.take used := by
  rw [Keyed.slots, List.map_map, inUse, List.map_take]
  congr 1
  refine List.ext_getElem (by simp) ?_
  intro i h h'
  simp [Vector.get]

namespace Dynamic

theorem Layout.length_tableSlots (table : Vector (Option (Fin 48)) 256) :
    (Layout.tableSlots table).length = table.toList.countP Option.isSome := by
  have htable : (List.finRange 256).map (fun b => table[b]) = table.toList := by
    refine List.ext_getElem (by simp) ?_
    intro i h h'
    simp
  rw [tableSlots, List.length_filterMap_eq_countP, ← htable, List.countP_map]
  refine List.countP_congr ?_
  intro b _
  simp

namespace Node

variable {nd : Node}

theorem finderIssues_eq_nil (hnd : nd.Sound) : finderIssues nd = [] := by
  obtain ⟨⟨stem, layout⟩, child⟩ := nd
  have hascending := ascending_map_fst.mpr hnd.ordered
  cases layout with
  | four keys used =>
      have hkeys : ascending (keys.toList.take used) = true :=
        Keyed.map_fst_slots keys used ▸ hascending
      exact if_pos hkeys
  | sixteen keys used =>
      have hkeys : ascending (keys.toList.take used) = true :=
        Keyed.map_fst_slots keys used ▸ hascending
      exact if_pos hkeys
  | fortyEight table count =>
      have hindexed : table.toList.countP Option.isSome = count :=
        (Layout.length_tableSlots table).symm.trans hnd.count.symm
      exact if_pos ⟨hindexed, hnd.countP_filled⟩
  | full count => rfl

theorem issues_eq_nil (hnd : nd.Sound) (hsized : Sized nd) : issues nd = [] := by
  have hfanOut : (size nd).fanOut.1 ≤ nd.count ∧ nd.count ≤ (size nd).fanOut.2 := by
    refine ⟨hsized, Nat.le_trans (count_le_capacity hnd) ?_⟩
    cases size nd <;> decide
  rw [issues, finderIssues_eq_nil hnd]
  dsimp only
  rw [if_pos hfanOut, if_pos hnd.count.symm]
  rfl

end Node

variable {L : Loader} {n : Nat} {path : Key}

/-- No key is out of place in a tree that fits its place. -/
theorem Tree.keyIssues_eq_nil {t : Tree} (ht : t.Fits L n path) :
    t.keyIssues L n path = .ok [] := by
  induction ht with
  | leaf hp =>
      rw [keyIssues, if_pos (List.isPrefixOf_iff_prefix.mpr hp)]
  | @node path stem h c hsound hspells htwo hbelow ih =>
      have hnd : (RadixIndex.Node.mk h c).Stands L n path stem := ⟨hsound, hspells, htwo, hbelow⟩
      have hkept : stem.take h.stem.inline.length = h.stem.inline :=
        (List.prefix_iff_eq_take.mp hspells.kept).symm
      obtain ⟨below, hmapM, hnone⟩ := mapM_ok (R := fun _ issues => issues = [])
        fun (s : UInt8 × Fin _) (hs : s ∈ (RadixIndex.Node.mk h c).slots) =>
          ⟨[], ih (s.1, c s.2) (List.mem_map_of_mem hs), rfl⟩
      have hflatten : below.flatten = [] := by
        refine List.flatten_eq_nil_iff.mpr ?_
        intro issues hissues
        obtain ⟨-, -, h⟩ := exists_of_forall₂ hnone hissues
        exact h
      rw [RadixIndex.Node.slots] at hmapM
      rw [keyIssues, hnd.rooted.fullStem_eq, ok_bind]
      dsimp only
      rw [hmapM, ok_bind, if_pos hkept, hflatten]
      rfl

end Dynamic

namespace DynamicTree.Refines

variable {L : Loader} {n : Nat} {t : DynamicTree} {m : Contents}

theorem leafCount_eq (h : t.Refines L n m) : t.root.leafCount = t.size :=
  (RadixIndex.Tree.leafCount_eq _).trans h.size_eq.symm

/-- The nodes are sound and have enough children. -/
theorem each_sized (h : t.Refines L n m) :
    t.root.Each fun nd => nd.Sound ∧ Dynamic.Node.Sized nd := by
  intro nd hnd
  rcases h.root with hroot | hroot
  · rw [hroot] at hnd
    exact absurd hnd List.not_mem_nil
  · exact ⟨hroot.fits.rooted.each_sound nd hnd, hroot.sized nd hnd⟩

theorem verify_eq_nil (h : t.Refines L n m) : t.verify = [] := by
  have hnodes : t.root.nodes.flatMap Dynamic.Node.issues = [] := by
    refine List.flatMap_eq_nil_iff.mpr ?_
    intro nd hnd
    obtain ⟨hsound, hsized⟩ := h.each_sized nd hnd
    exact Dynamic.Node.issues_eq_nil hsound hsized
  rw [verify]
  simp [h.leafCount_eq, h.stats_eq, hnodes]

/-- The verifier, which writes keys down, has room for them and finds no issue. -/
theorem verifyWith_eq (h : t.Refines L n m) (hn : n ≤ Key.maxLength) :
    t.verifyWith L = .ok [] := by
  have hkeys : t.root.keyIssues L n [] = .ok [] := by
    rcases h.fits with hroot | hroot
    · rw [hroot]
      rfl
    · exact Dynamic.Tree.keyIssues_eq_nil hroot
  rw [verifyWith, h.keyLength_eq, if_pos hn, h.verify_eq_nil, hkeys]
  rfl

end DynamicTree.Refines

end RadixIndex
