/-
# Freezing preserves the tree

A frozen tree is the dynamic tree in another representation, although it looks keys up by
comparing whole stems on the way down where the dynamic tree skips them and compares at
the leaf.  Lookups, cursors, the number of records and what the shape report tells apart
from memory are the same (`Preserves`), whatever the policy, and the verifier has nothing
against the new tree (`freeze_preserves`).

Cursors of both families show the records that are not below the key.  These are the same
records in both trees, so the cursors walk through one list.
-/
import RadixIndex.Proofs.Static.Integrity
import RadixIndex.Proofs.Walk

namespace RadixIndex

variable {H H' : Type} [NodeHeader H] [NodeHeader H'] {L : Loader} {n : Nat}

namespace Cursor

/-! ## Cursors that walk alike -/

variable {cur : Cursor H} {cur' : Cursor H'} {rs : List Record}

/-- The cursors walk through the same records, which are all that is left to them. -/
def WalkAlike (cur : Cursor H) (cur' : Cursor H') : Prop :=
  ∃ records, (cur.Walks records ∧ cur.rest.1 = records) ∧
    cur'.Walks records ∧ cur'.rest.1 = records

theorem Shows.walkAlike (h : cur.Shows L n rs) (h' : cur'.Shows L n rs) :
    cur.WalkAlike cur' :=
  ⟨rs, ⟨h.walks, h.rest_eq⟩, h'.walks, h'.rest_eq⟩

/-- Trees with the same records answer a search with cursors that walk alike. -/
theorem lowerBound_walkAlike {t : Tree H} {t' : Tree H'} (ht : t = .empty ∨ t.Rooted L n [])
    (ht' : t' = .empty ∨ t'.Rooted L n []) (hrecords : t'.records = t.records) {key : Key}
    (hk : key.length = n) :
    ∃ cur cur', lowerBound L t key = .ok cur ∧ lowerBound L t' key = .ok cur' ∧
      cur.WalkAlike cur' := by
  obtain ⟨cur, hseek, hshows⟩ := lowerBound_ok ht hk
  obtain ⟨cur', hseek', hshows'⟩ := lowerBound_ok ht' hk
  rw [hrecords] at hshows'
  exact ⟨cur, cur', hseek, hseek', hshows.walkAlike hshows'⟩

theorem first_walkAlike {t : Tree H} {t' : Tree H'} (ht : t = .empty ∨ t.Rooted L n [])
    (ht' : t' = .empty ∨ t'.Rooted L n []) (hrecords : t'.records = t.records) :
    (first t).WalkAlike (first t') :=
  (first_shows ht).walkAlike (hrecords ▸ first_shows ht')

end Cursor

open RadixIndex.Static

namespace StaticTree

/-- The static tree is the dynamic tree, in all that can be asked of both and that does
not tell how much memory they take. -/
structure Preserves (L : Loader) (n : Nat) (t : DynamicTree) (f : StaticTree) : Prop where
  get_eq : ∀ key : Key, key.length = n → f.get L key = t.get L key
  lowerBound_alike : ∀ key : Key, key.length = n → ∃ cur cur', t.lowerBound L key = .ok cur ∧
    f.lowerBound L key = .ok cur' ∧ cur.WalkAlike cur'
  first_alike : t.first.WalkAlike f.first
  size_eq : f.size = t.size
  histogram : t.histogram.Agrees f.histogram
  nodes_eq : f.histogram.nodes = t.histogram.nodes
  /-- The verifier, which writes keys down, has room for them and finds no issue. -/
  verified : f.verifyWith L = .ok []

/-- Freezing any dynamic tree that there can be answers, under every policy, with a tree
that preserves it, and leaves the empty tree behind. -/
theorem freeze_preserves {t : DynamicTree} (hn : n < 2 ^ 32) (ht : t.Reachable L n)
    (p : ShapePolicy) :
    ∃ f, t.freeze L p = .ok (f, .empty n) ∧ Preserves L n t f := by
  obtain ⟨m, hm⟩ := ht.refines
  obtain ⟨root, hfreeze, hroot, hrecords, halike⟩ :=
    freeze_root (Q := Node.IsPacked) (p := p) (fun l _ => ⟨l, p, rfl⟩) hm
  have hf : (ofRoot root n root.records.length).Refines L n m :=
    refines_ofRoot hroot (hrecords ▸ hm.holds)
  have hhistogram := RadixIndex.Tree.histogram_agrees halike
  have hroom : n ≤ Key.maxLength := by
    rw [Key.maxLength]
    omega
  exact ⟨_, hfreeze,
    { get_eq := fun _ hk => (hf.get_eq hk).trans (hm.get_eq hk).symm
      lowerBound_alike := fun _ hk => Cursor.lowerBound_walkAlike hm.rooted hf.rooted hrecords hk
      first_alike := Cursor.first_walkAlike hm.rooted hf.rooted hrecords
      size_eq := hf.card_eq.trans hm.card_eq.symm
      histogram := hhistogram
      nodes_eq := hhistogram.nodes_eq
      verified := hf.verifyWith_eq hroom }⟩

/-- Two keys that share more bytes than a dynamic node keeps. -/
theorem freeze_preserves_of_long_stem :
    let L := Loader.modulo 256
    ∃ t f, t.size = 2 ∧ t.histogram.longStems = 1 ∧ t.freeze L {} = .ok (f, .empty 12) ∧
      Preserves L 12 t f := by
  have hmade : ∃ t : DynamicTree, t.size = 2 ∧ t.histogram.longStems = 1 ∧
      t.Reachable (.modulo 256) 12 := by
    refine ⟨_, ?_, ?_, .write (w := .insert [0, 0, 0, 0, 0, 0, 0, 0, 0, 0, 0, 2] 2)
      (.write (w := .insert [0, 0, 0, 0, 0, 0, 0, 0, 0, 0, 0, 1] 1) .empty ⟨rfl, by decide⟩ rfl)
      ⟨rfl, by decide⟩ rfl⟩
    · rfl
    · rfl
  obtain ⟨t, hsize, hlong, ht⟩ := hmade
  obtain ⟨f, hfreeze, hpreserves⟩ := freeze_preserves (by decide) ht {}
  exact ⟨t, f, hsize, hlong, hfreeze, hpreserves⟩

end StaticTree

end RadixIndex
