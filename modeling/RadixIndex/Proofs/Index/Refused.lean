/-
# Refused writes

A write that says it stored, replaced or removed nothing has left everything as it was: the
tree with its counters, and in an index both trees (`refused_unchanged`).  This asks nothing
of the tree or the index.

In an index there is a merge to account for, which may come before a record is stored.  A
merge is due only when the dynamic tree has records, and it leaves the dynamic tree empty; an
empty tree stores what it is given.  So an index that refuses a record has not merged.
-/
import RadixIndex.Proofs.Dynamic.InPlace
import RadixIndex.Proofs.Index.Trees

namespace RadixIndex

/-- A tree with an empty root stores every record that it has an answer for. -/
theorem DynamicTree.insert_of_root_empty {L : Loader} {key : Key} {record : Record}
    {t t' : DynamicTree} {inserted : Bool} (ht : t.root = .empty)
    (h : t.insert L key record = .ok (inserted, t')) : inserted = true := by
  rw [insert, ht] at h
  split at h
  · cases h
  · exact (Prod.mk.inj (Except.ok.inj h)).1.symm

namespace Index

variable {x x' : Index} {key : Key} {record : Record}

/-- A merge that is due leaves nothing in the dynamic tree. -/
theorem root_of_mergeDue {outcome : MergeOutcome} (hdue : x.mergeDue = true)
    (h : x.merge = .ok (x', outcome)) : x'.dynamic.root = .empty := by
  have hsize : ¬ x.dynamic.isEmpty = true := by
    simp only [mergeDue, Bool.and_eq_true, decide_eq_true_eq] at hdue
    simp only [DynamicTree.isEmpty, beq_iff_eq]
    omega
  have hrest : ∀ fresh dynamic, x.dynamic.freeze x.loader x.config.shapePolicy =
      .ok (fresh, dynamic) → dynamic.root = .empty := by
    intro fresh dynamic hfreeze
    obtain ⟨root, -, hfreeze⟩ := bind_eq_ok.mp hfreeze
    obtain ⟨-, rfl⟩ := Prod.mk.inj (Except.ok.inj hfreeze)
    rfl
  rw [merge, if_neg hsize] at h
  obtain ⟨⟨fresh, dynamic⟩, hfreeze, h⟩ := bind_eq_ok.mp h
  dsimp only at h
  split at h
  · obtain ⟨rfl, -⟩ := Prod.mk.inj (Except.ok.inj h)
    exact hrest fresh dynamic hfreeze
  · obtain ⟨⟨frozen, outcome'⟩, -, h⟩ := bind_eq_ok.mp h
    obtain ⟨rfl, -⟩ := Prod.mk.inj (Except.ok.inj h)
    exact hrest fresh dynamic hfreeze

theorem insert_refused (h : x.insert key record = .ok (false, x')) :
    x' = x ∧ x.mergeDue = false := by
  obtain ⟨y, hy, h⟩ := bind_eq_ok.mp h
  obtain ⟨⟨inserted, dynamic⟩, hinsert, h⟩ := bind_eq_ok.mp h
  obtain ⟨rfl, rfl⟩ := Prod.mk.inj (Except.ok.inj h)
  have hsame : dynamic = y.dynamic := DynamicTree.insert_refused hinsert
  have hnot : x.mergeDue = false := by
    refine Bool.eq_false_iff.mpr ?_
    intro hdue
    rw [mergeIfDue, if_pos hdue] at hy
    obtain ⟨⟨z, outcome⟩, hmerge, hy⟩ := bind_eq_ok.mp hy
    obtain rfl := Except.ok.inj hy
    cases DynamicTree.insert_of_root_empty (root_of_mergeDue hdue hmerge) hinsert
  rw [mergeIfDue, if_neg (Bool.eq_false_iff.mp hnot)] at hy
  obtain rfl := Except.ok.inj hy
  exact ⟨by rw [hsame], hnot⟩

theorem erase_refused (h : x.erase key = .ok (false, x')) : x' = x := by
  obtain ⟨⟨erased, dynamic⟩, herase, h⟩ := bind_eq_ok.mp h
  obtain ⟨rfl, rfl⟩ := Prod.mk.inj (Except.ok.inj h)
  rw [DynamicTree.erase_refused herase]

/-- An operation that says it did nothing did nothing, and it did not merge before. -/
theorem perform_refused {o : Operation} (h : x.perform o = .ok (.flag false, x')) :
    x' = x ∧ (o.stores = true → x.mergeDue = false) := by
  cases o with
  | insert key record =>
      obtain ⟨⟨inserted, y⟩, hinsert, h⟩ := bind_eq_ok.mp h
      obtain ⟨hno, rfl⟩ := Prod.mk.inj (Except.ok.inj h)
      obtain rfl : inserted = false := Answer.flag.inj hno
      obtain ⟨hsame, hdue⟩ := insert_refused hinsert
      exact ⟨hsame, fun _ => hdue⟩
  | upsert key record =>
      obtain ⟨y, -, h⟩ := bind_eq_ok.mp h
      exact absurd (Prod.mk.inj (Except.ok.inj h)).1 nofun
  | erase key =>
      obtain ⟨⟨erased, y⟩, herase, h⟩ := bind_eq_ok.mp h
      obtain ⟨hno, rfl⟩ := Prod.mk.inj (Except.ok.inj h)
      obtain rfl : erased = false := Answer.flag.inj hno
      exact ⟨erase_refused herase, nofun⟩
  | merge =>
      obtain ⟨⟨y, outcome⟩, -, h⟩ := bind_eq_ok.mp h
      exact absurd (Prod.mk.inj (Except.ok.inj h)).1 nofun

end Index

/-- A write in place that comes to any slot of any tree, whatever the length of its key, and
says it did nothing hands back the slot and the counters as they were.  A write to any dynamic
tree, in place or not, that says so leaves the tree with its counters as it was, and in place
it answers what it answers otherwise.  An operation on any index that says so leaves the whole
index as it was, and there was no merge to be done before it. -/
theorem refused_unchanged :
    (∀ (L : Loader) (key : Key) (record : Record) (t t' : Dynamic.Tree) (depth : Nat)
      (s s' : Dynamic.Stats) (skipped : Bool),
      (t.insertInPlace L key record depth s = .ok (false, t', s') ∨
        t.eraseInPlace L key depth s = .ok (false, t', s') → t' = t ∧ s' = s) ∧
      (t.updateInPlace L key record depth skipped = .ok (false, t') → t' = t)) ∧
    (∀ (L : Loader) (t t' : DynamicTree) (w : DynamicTree.Write),
      t.write L w = .ok (some false, t') ∨ t.writeInPlace L w = .ok (some false, t') →
        t' = t) ∧
    (∀ (L : Loader) (t : DynamicTree) (w : DynamicTree.Write) (a : Option Bool × DynamicTree),
      t.writeInPlace L w = .ok a → t.write L w = .ok a) ∧
    ∀ (x x' : Index) (o : Index.Operation), x.perform o = .ok (.flag false, x') →
      x' = x ∧ (o.stores = true → x.mergeDue = false) := by
  refine ⟨?_, ?_, fun L t w a h => DynamicTree.writeInPlace_agrees h,
    fun x x' o h => Index.perform_refused h⟩
  · intro L key record t t' depth s s' skipped
    refine ⟨?_, Dynamic.Tree.updateInPlace_refused⟩
    rintro (h | h)
    · exact Dynamic.Tree.insertInPlace_refused h
    · exact Dynamic.Tree.eraseInPlace_refused h
  · rintro L t t' w (h | h)
    · exact DynamicTree.write_refused h
    · exact DynamicTree.write_refused (DynamicTree.writeInPlace_agrees h)

/-- A tree with counters that no writes give it, and an index with that tree that merges by
itself, refuse a key that is there; its root refuses a longer one, too, that the loader gives
the leaf it leads to. -/
theorem refused_unchanged_of_wrong_counters :
    let L := Loader.modulo 256
    let w : DynamicTree.Write := .insert [1] 257
    let node := Dynamic.Node.ofFour .nil #v[1, 2, 0, 0] 2 fun i =>
      if i.val = 0 then .leaf 1 else if i.val = 1 then .leaf 2 else .empty
    let t : DynamicTree := ⟨node.toTree, 1, 7, { four := 5 }⟩
    let x : Index :=
      ⟨{ keyLength := 1, autoMerge := true, mergeThreshold := 7 }, L, t, .empty 1⟩
    (∃ root s, t.root.insertInPlace L [1, 1] 257 0 t.stats = .ok (false, root, s) ∧
      root = t.root ∧ s = t.stats) ∧
    (∃ t', t.writeInPlace L w = .ok (some false, t') ∧ t.write L w = .ok (some false, t') ∧
      t' = t) ∧
    ∃ x', x.perform (.insert [1] 257) = .ok (.flag false, x') ∧ x' = x ∧
      x.mergeDue = false := by
  intro L w node t x
  have hroot : (t.root.insertInPlace L [1, 1] 257 0 t.stats).map Prod.fst = .ok false := by decide +kernel
  have htree : (t.writeInPlace L w).map Prod.fst = .ok (some false) := by decide +kernel
  have hindex : (x.perform (.insert [1] 257)).map Prod.fst = .ok (.flag false) := by decide +kernel
  obtain ⟨⟨root, s⟩, hs⟩ := exists_of_map_fst hroot
  obtain ⟨t', ht'⟩ := exists_of_map_fst htree
  obtain ⟨x', hx'⟩ := exists_of_map_fst hindex
  obtain ⟨hslots, htrees, hplace, hindexes⟩ := refused_unchanged
  obtain ⟨hsame, hdue⟩ := hindexes x x' _ hx'
  exact ⟨⟨root, s, hs, (hslots L [1, 1] 257 t.root root 0 t.stats s false).1 (.inl hs)⟩,
    ⟨t', ht', hplace L t w _ ht', htrees L t t' w (.inr ht')⟩, x', hx', hsame, hdue rfl⟩

end RadixIndex
