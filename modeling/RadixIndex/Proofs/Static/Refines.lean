/-
# Static trees are finite maps

A static tree holds a finite map from keys to records, as a dynamic tree does.
Freezing hands the map of the dynamic tree on (`freeze_ok`), and merging makes the
union of the two maps in which the newer one has the say (`merge_ok`).  Neither
stops with a fault.
-/
import RadixIndex.Proofs.Contents
import RadixIndex.Proofs.Dynamic.Refines
import RadixIndex.Proofs.Static.Freeze
import RadixIndex.Proofs.Static.Merge

open RadixIndex.Static

namespace RadixIndex.StaticTree

/-- The tree, for keys of `n` bytes, is well-formed and holds the map. -/
structure Refines (L : Loader) (n : Nat) (t : StaticTree) (m : Contents) : Prop where
  keyLength_eq : t.keyLength = n
  root : t.root = .empty ∨ Tree.Formed Node.IsPacked L n [] t.root
  size_eq : t.size = t.root.records.length
  holds : Holds L n t.root.records m

theorem refines_empty (L : Loader) (n : Nat) : (empty n).Refines L n ∅ :=
  ⟨rfl, Or.inl rfl, rfl, Holds.empty L n⟩

theorem refines_ofRoot {L : Loader} {n : Nat} {root : Static.Tree} {m : Contents}
    (hroot : root = .empty ∨ Tree.Formed Node.IsPacked L n [] root)
    (hholds : Holds L n root.records m) :
    (ofRoot root n root.records.length).Refines L n m :=
  ⟨rfl, hroot, rfl, hholds⟩

namespace Refines

variable {L : Loader} {n : Nat} {t newer older : StaticTree} {m m' : Contents} {key : Key}

theorem fits (h : t.Refines L n m) : t.root = .empty ∨ t.root.Fits L n [] :=
  h.root.imp_right Tree.Formed.fits

theorem rooted (h : t.Refines L n m) : t.root = .empty ∨ t.root.Rooted L n [] :=
  RadixIndex.Tree.rooted_of_root h.fits

theorem ordered (h : t.Refines L n m) : L.Ordered n t.root.records :=
  RadixIndex.Tree.ordered_of_root h.rooted

theorem get_eq (h : t.Refines L n m) (hk : key.length = n) : t.get L key = m.lookup key := by
  refine Option.ext ?_
  intro r
  rw [h.holds key r]
  exact Tree.getFrom_root h.rooted hk

theorem card_eq (h : t.Refines L n m) : t.size = m.keys.card :=
  h.size_eq.trans (h.holds.card_keys h.ordered).symm

theorem leafCount_eq (h : t.Refines L n m) : t.root.leafCount = t.size :=
  (RadixIndex.Tree.leafCount_eq _).trans h.size_eq.symm

end Refines

/-! ## Freezing -/

section Freezing

variable {L : Loader} {n : Nat} {t : DynamicTree} {m : Contents} {p : ShapePolicy}
  {Q : Static.Node → Prop}

/-- Freezing makes a tree whose root is formed of packed nodes and has the same records
and nodes alike, and leaves the empty tree. -/
theorem freeze_root (hQ : ∀ l : Loose, l.Proper → Q (l.pack p)) (h : t.Refines L n m) :
    ∃ root, t.freeze L p = .ok (.ofRoot root n root.records.length, .empty n) ∧
      (root = .empty ∨ Tree.Formed Q L n [] root) ∧ root.records = t.root.records ∧
        List.Forall₂ RadixIndex.Node.Alike t.root.nodes root.nodes := by
  have hroot : ∃ root, t.root.freezeFrom L n p 0 = .ok root ∧
      (root = .empty ∨ Tree.Formed Q L n [] root) ∧ root.records = t.root.records ∧
        List.Forall₂ RadixIndex.Node.Alike t.root.nodes root.nodes := by
    rcases h.root with hempty | hfirm
    · rw [hempty]
      exact ⟨.empty, rfl, Or.inl rfl, rfl, .nil⟩
    · obtain ⟨root, hfreeze, hfrozen⟩ := freezeFrom_ok hQ hfirm.fits
      exact ⟨root, hfreeze, Or.inr hfrozen.formed, hfrozen.records_eq, hfrozen.alike⟩
  obtain ⟨root, hfreeze, hformed, hrecords, halike⟩ := hroot
  refine ⟨root, ?_, hformed, hrecords, halike⟩
  rw [DynamicTree.freeze, h.keyLength_eq, hfreeze, h.size_eq, hrecords]
  rfl

theorem freeze_ok (h : t.Refines L n m) (p : ShapePolicy) :
    ∃ f, t.freeze L p = .ok (f, .empty n) ∧ f.Refines L n m := by
  obtain ⟨root, hfreeze, hformed, hrecords, -⟩ :=
    freeze_root (Q := Node.IsPacked) (p := p) (fun l _ => ⟨l, p, rfl⟩) h
  exact ⟨_, hfreeze, refines_ofRoot hformed (hrecords ▸ h.holds)⟩

end Freezing

/-! ## Merging -/

namespace Refines

variable {L : Loader} {n : Nat} {newer older : StaticTree} {m m' : Contents} {p : ShapePolicy}
  {Q : Static.Node → Prop}

/-- The roots are merged, whether there is anything below them or not. -/
theorem merge_roots (hQ : Suits Q p) (h : newer.Refines L n m) (h' : older.Refines L n m')
    (hs : newer.root = .empty ∨ Tree.Formed Q L n [] newer.root)
    (ht : older.root = .empty ∨ Tree.Formed Q L n [] older.root) :
    ∃ root common, Merger.merge ⟨L, n, p⟩ newer.root older.root 0 = .ok (root, common) ∧
      (root = .empty ∨ Tree.Formed Q L n [] root) ∧
        Holds L n root.records (m ∪ m') ∧
          root.records.length + common = newer.size + older.size := by
  obtain ⟨root, common, hmerge, hroot⟩ := merge_root_ok (m := ⟨L, n, p⟩) hQ hs ht
  refine ⟨root, common, hmerge, ?_⟩
  rw [h.size_eq, h'.size_eq]
  rcases hroot with ⟨hs, ht, rfl, rfl⟩ | hmerged
  · refine ⟨Or.inl rfl, h.holds.union h'.holds ?_, ?_⟩
    · intro x
      simp [hs, ht]
    · simp [hs, ht]
  · exact ⟨Or.inr hmerged.formed, h.holds.union h'.holds hmerged.mem, hmerged.length⟩

/-- Merging makes a tree whose root is formed of packed nodes and holds the union, and
counts the keys of both maps and those of either. -/
theorem merge_root (hQ : Suits Q p) (h : newer.Refines L n m) (h' : older.Refines L n m')
    (hs : newer.root = .empty ∨ Tree.Formed Q L n [] newer.root)
    (ht : older.root = .empty ∨ Tree.Formed Q L n [] older.root) :
    ∃ root, newer.merge older L p = .ok (.ofRoot root n root.records.length,
        ⟨(m ∪ m').keys.card, (m.keys ∩ m'.keys).card⟩) ∧
      (root = .empty ∨ Tree.Formed Q L n [] root) ∧ Holds L n root.records (m ∪ m') := by
  obtain ⟨root, common, hmerge, hroot, hholds, hlength⟩ := merge_roots hQ h h' hs ht
  have hordered : L.Ordered n root.records :=
    RadixIndex.Tree.ordered_of_root (hroot.imp_right fun h => h.fits.rooted)
  have hitems : (m ∪ m').keys.card = root.records.length := hholds.card_keys hordered
  have hcommon : (m.keys ∩ m'.keys).card = common := by
    have hcard := Finset.card_union_add_card_inter m.keys m'.keys
    rw [← Finmap.keys_union, hitems, ← h.card_eq, ← h'.card_eq] at hcard
    omega
  have hkey : ¬ newer.keyLength ≠ older.keyLength := fun hne =>
    hne (h.keyLength_eq.trans h'.keyLength_eq.symm)
  have htotal : ¬ newer.size + older.size < common := by omega
  refine ⟨root, ?_, hroot, hholds⟩
  rw [StaticTree.merge, if_neg hkey, h'.keyLength_eq, hitems, hcommon]
  dsimp only
  rw [hmerge, ok_bind]
  dsimp only
  rw [if_neg htotal, ← hlength, Nat.add_sub_cancel]
  rfl

/-- Merging unites the maps. -/
theorem merge_ok (h : newer.Refines L n m) (h' : older.Refines L n m') (p : ShapePolicy) :
    ∃ t, newer.merge older L p =
        .ok (t, ⟨(m ∪ m').keys.card, (m.keys ∩ m'.keys).card⟩) ∧ t.Refines L n (m ∪ m') := by
  obtain ⟨root, hmerge, hroot, hholds⟩ := merge_root (suits_isPacked p) h h' h.root h'.root
  exact ⟨_, hmerge, refines_ofRoot hroot hholds⟩

end Refines

end RadixIndex.StaticTree
