/-
# Questions to a loader that always answers

Run with a loader that always answers, the operations with questions do what those without do:
they answer the same or stop with the same fault.  There is one equation for each of them, in
the order in which they call each other.
-/
import RadixIndex.Asking.Index
import RadixIndex.Proofs.Static.Merge
import RadixIndex.Proofs.Static.Within

namespace RadixIndex

variable {L : Loader} {key : Key} {record : Record} {depth : Nat}

@[simp]
theorem Loader.toPartial_load (L : Loader) (r : Record) (n : Nat) :
    L.toPartial.load r n = .ok (L.load r n) := rfl

/-! ## Stems and cursors -/

namespace Asking

variable {H : Type} [NodeHeader H] {nd : Node H}

theorem matchesFrom_run (r : Record) :
    (matchesFrom r key depth).run L.toPartial = .ok (L.matchesFrom r key depth) := by
  rw [matchesFrom, Loader.matchesFrom]
  by_cases h : key.length ≤ depth
  · simp [h, -bind_pure_comp]
  · simp [h, -bind_pure_comp]

theorem fullStem_run (n : Nat) :
    (fullStem nd depth n).run L.toPartial = nd.fullStem L depth n := by
  rw [fullStem, Node.fullStem]
  cases nd.witness? with
  | none => rfl
  | some r => simp

theorem stemMatch_run : (stemMatch nd key depth).run L.toPartial = nd.stemMatch L key depth := by
  rw [stemMatch, Node.stemMatch, run_bind, run_liftM]
  refine bind_congr fun suffix => ?_
  dsimp only
  rw [run_ite]
  congr 1
  cases nd.witness? with
  | none => rfl
  | some r => simp [-bind_pure_comp]

theorem compareStem_run :
    (compareStem nd key depth).run L.toPartial = nd.compareStem L key depth := by
  rw [compareStem, Node.compareStem, run_bind, run_liftM]
  refine bind_congr fun beginning => ?_
  dsimp only
  rw [run_ite]
  congr 1
  cases nd.witness? with
  | none => rfl
  | some r => simp [-bind_pure_comp]

theorem seekFrom_run (t : Tree H) (pending : List (Tree H)) :
    (seekFrom key t depth pending).run L.toPartial = Cursor.seekFrom L key t depth pending := by
  induction t generalizing depth pending with
  | empty => rfl
  | leaf r => simp [seekFrom, Cursor.seekFrom]
  | node h c ih =>
      rw [seekFrom, Cursor.seekFrom, run_bind, compareStem_run]
      refine bind_congr fun order => ?_
      cases order with
      | gt | lt => rfl
      | eq =>
          dsimp only
          cases key[depth + NodeHeader.stemLength h]? with
          | none => rfl
          | some byte =>
              dsimp only
              cases (NodeHeader.slots h fun i => !(c i).isEmpty).dropWhile
                  fun s => decide (s.1 < byte) with
              | nil => rfl
              | cons s rest =>
                  dsimp only
                  rw [run_ite, ih]
                  rfl

theorem lowerBound_run (t : Tree H) :
    (lowerBound t key).run L.toPartial = Cursor.lowerBound L t key := seekFrom_run t []

end Asking

/-! ## Dynamic trees -/

namespace Dynamic.Asking

open RadixIndex.Asking

variable {t : Tree} {s : Stats}

theorem getFrom_run (skipped : Bool) :
    (getFrom key t depth skipped).run L.toPartial = .ok (t.getFrom L key depth skipped) := by
  induction t generalizing depth skipped with
  | empty => rfl
  | leaf r => simp [getFrom, Tree.getFrom, matchesFrom_run, apply_ite Except.ok]
  | node h c ih =>
      rw [getFrom, Tree.getFrom, run_ite, apply_ite Except.ok]
      congr 1
      dsimp only
      cases key[depth + h.stem.length]? with
      | none => rfl
      | some byte =>
          dsimp only
          cases NodeHeader.find h (fun i => !(c i).isEmpty) byte with
          | none => rfl
          | some i => exact ih i _

theorem getCheckedFrom_run :
    (getCheckedFrom key t depth).run L.toPartial = t.getCheckedFrom L key depth := by
  induction t generalizing depth with
  | empty => rfl
  | leaf r => simp [getCheckedFrom, Tree.getCheckedFrom, matchesFrom_run, apply_ite Except.ok]
  | node h c ih =>
      rw [getCheckedFrom, Tree.getCheckedFrom, run_ite]
      congr 1
      rw [run_bind, stemMatch_run]
      refine bind_congr fun matched => ?_
      rw [run_ite]
      congr 1
      dsimp only
      cases key[depth + h.stem.length]? with
      | none => rfl
      | some byte =>
          dsimp only
          cases NodeHeader.find h (fun i => !(c i).isEmpty) byte with
          | none => rfl
          | some i => exact ih i

theorem updateFrom_run (skipped : Bool) : (updateFrom key record t depth skipped).run L.toPartial =
    .ok (t.updateFrom L key record depth skipped) := by
  induction t generalizing depth skipped with
  | empty => rfl
  | leaf r => simp [updateFrom, Tree.updateFrom, matchesFrom_run, apply_ite Except.ok]
  | node h c ih =>
      rw [updateFrom, Tree.updateFrom, run_ite, apply_ite Except.ok]
      congr 1
      dsimp only
      cases key[depth + h.stem.length]? with
      | none => rfl
      | some byte =>
          dsimp only
          cases NodeHeader.find h (fun i => !(c i).isEmpty) byte with
          | none => rfl
          | some i => simp [ih, -bind_pure_comp]

theorem splitStem_run {nd : Node} (mismatch : Nat) :
    (splitStem nd key depth mismatch record s).run L.toPartial =
      Node.splitStem L nd key depth mismatch record s := by
  simp [splitStem, Node.splitStem, fullStem_run]

theorem insertFrom_run : (insertFrom key record t depth s).run L.toPartial =
    t.insertFrom L key record depth s := by
  induction t generalizing depth s with
  | empty => rfl
  | leaf existing => simp [insertFrom, Tree.insertFrom, -bind_pure_comp]
  | node h c ih =>
      rw [insertFrom, Tree.insertFrom]
      simp only [run_bind, stemMatch_run, run_ite, splitStem_run, run_liftM]
      refine bind_congr fun mismatch => ?_
      congr 1
      refine bind_congr fun byte => ?_
      cases NodeHeader.find h (fun i => !(c i).isEmpty) byte with
      | none => simp [-bind_pure_comp]
      | some i => simp [ih, -bind_pure_comp]

theorem leafHolds_run : (leafHolds key t depth).run L.toPartial =
    .ok (t.record?.any fun r => L.matchesFrom r key depth) := by
  cases t with
  | empty | node _ _ => rfl
  | leaf r => exact matchesFrom_run r

theorem eraseFrom_run :
    (eraseFrom key t depth s).run L.toPartial = t.eraseFrom L key depth s := by
  induction t generalizing depth s with
  | empty => rfl
  | leaf r => simp [eraseFrom, Tree.eraseFrom, matchesFrom_run, apply_ite Except.ok]
  | node h c ih =>
      rw [eraseFrom, Tree.eraseFrom]
      simp only [run_bind, stemMatch_run, run_ite, run_liftM]
      refine bind_congr fun matched => ?_
      congr 1
      refine bind_congr fun byte => ?_
      cases NodeHeader.find h (fun i => !(c i).isEmpty) byte with
      | none => rfl
      | some i => simp [leafHolds_run, ih, -bind_pure_comp]

/-! ### Whole trees -/

variable {t : DynamicTree}

theorem get_run : (get t key).run L.toPartial = .ok (t.get L key) := getFrom_run false

theorem getChecked_run : (getChecked t key).run L.toPartial = t.getChecked L key :=
  getCheckedFrom_run

theorem update_run : (update t key record).run L.toPartial = .ok (t.update L key record) := by
  rw [update, DynamicTree.update, run_bind, updateFrom_run, ok_bind]
  cases t.root.updateFrom L key record 0 false with
  | none => rfl
  | some root => rfl

theorem insert_run : (insert t key record).run L.toPartial = t.insert L key record := by
  rw [insert, DynamicTree.insert]
  split
  · rfl
  · rw [run_bind, insertFrom_run]
    refine bind_congr fun found => ?_
    cases found with
    | none => rfl
    | some _ => rfl

theorem upsert_run : (upsert t key record).run L.toPartial = t.upsert L key record := by
  rw [upsert, DynamicTree.upsert, run_bind, update_run, ok_bind]
  obtain ⟨updated, t'⟩ := t.update L key record
  cases updated with
  | true => rfl
  | false => simp [insert_run, -bind_pure_comp]

theorem erase_run : (erase t key).run L.toPartial = t.erase L key := by
  rw [erase, DynamicTree.erase]
  split
  · rfl
  · rw [run_bind, eraseFrom_run]
    refine bind_congr fun found => ?_
    cases found with
    | none => rfl
    | some _ =>
        dsimp only
        split <;> rfl

/-! ### Freezing -/

theorem freezeFrom_run {n : Nat} {p : Static.ShapePolicy} {t : Tree} :
    (freezeFrom n p t depth).run L.toPartial = t.freezeFrom L n p depth := by
  induction t generalizing depth with
  | empty => rfl
  | leaf r => rfl
  | node h c ih =>
      rw [freezeFrom, Tree.freezeFrom, run_bind, fullStem_run]
      refine bind_congr fun stem => ?_
      rw [run_bind, run_mapM]
      congr 1
      · congr 1
        funext slot
        obtain ⟨b, slot⟩ := slot
        cases slot with
        | none => rfl
        | some i => simp [ih, -bind_pure_comp]
      · funext entries
        simp [-bind_pure_comp]

theorem freeze_run {p : Static.ShapePolicy} : (freeze t p).run L.toPartial = t.freeze L p := by
  rw [freeze, DynamicTree.freeze, run_bind, freezeFrom_run]
  rfl

end Dynamic.Asking

/-! ## Static trees -/

namespace Static

open RadixIndex.Asking

theorem Asking.getFrom_run {t : Tree} :
    (Asking.getFrom key t depth).run L.toPartial = .ok (t.getFrom L key depth) := by
  induction t generalizing depth with
  | empty => rfl
  | leaf r => simp [Asking.getFrom, Tree.getFrom, matchesFrom_run, apply_ite Except.ok]
  | node h c ih =>
      rw [Asking.getFrom, Tree.getFrom, run_ite, apply_ite Except.ok]
      congr 1
      dsimp only
      cases key[depth + h.stem.length]? with
      | none => rfl
      | some byte =>
          dsimp only
          cases NodeHeader.find h (fun i => !(c i).isEmpty) byte with
          | none => rfl
          | some i => exact ih i

theorem Asking.get_run {t : StaticTree} :
    (Asking.get t key).run L.toPartial = .ok (t.get L key) := Asking.getFrom_run

/-! ### Merging -/

namespace Asking.Merging

variable {m : Merging} {stem : Key}

/-- What a merge goes by, with a loader. -/
def withLoader (m : Merging) (L : Loader) : Merger := ⟨L, m.keyLength, m.policy⟩

/-- Children that are named in any way are lined up like the children themselves. -/
theorem join_run {ι κ : Type} {newer : ι → Tree} {older : κ → Tree}
    {both : ι → κ → Asking (Tree × Nat)} {both' : Tree → Tree → Merger.Result}
    (hboth : ∀ i j, (both i j).run L.toPartial = both' (newer i) (older j))
    (xs : List (UInt8 × ι)) (ys : List (UInt8 × κ)) :
    (m.join stem newer older both xs ys).run L.toPartial =
      ((align (xs.map fun x => (x.1, newer x.2)) (ys.map fun y => (y.1, older y.2))).mapM
        ((m.withLoader L).part both') >>= (m.withLoader L).assemble stem) := by
  rw [join, run_bind, run_mapM]
  simp only [run_liftM]
  show _ >>= (m.withLoader L).assemble stem = _
  refine align_slots newer older ?_
  intro b pairing
  cases pairing with
  | left i => rfl
  | right j => rfl
  | both i j =>
      rw [run_bind, hboth]
      rfl

theorem mergeLeaves_run (newer older : Record) :
    (m.mergeLeaves newer older depth).run L.toPartial =
      (m.withLoader L).mergeLeaves newer older depth := by
  simp only [mergeLeaves, Merger.mergeLeaves, run_bind, run_load, run_liftM, run_ite, run_pure,
    L.toPartial_load, ok_bind]
  rfl

theorem mergeLeaf_run {r : Record} {newer : Bool} {t : Tree} :
    (m.mergeLeaf r newer t depth).run L.toPartial =
      (m.withLoader L).mergeLeaf r newer t depth := by
  induction t generalizing depth with
  | empty => rfl
  | leaf s => cases newer <;> exact mergeLeaves_run ..
  | node h c ih =>
      rw [mergeLeaf, mergeLeaf_node, run_bind, run_load, L.toPartial_load, ok_bind, run_bind,
        run_liftM]
      refine bind_congr fun path => ?_
      rw [run_bind, run_liftM]
      refine bind_congr fun byte => ?_
      dsimp only
      cases path.drop (Key.commonLength path h.stem) with
      | nil => exact join_run (fun _ i => ih i) _ _
      | cons a rest =>
          cases h.stem.drop (Key.commonLength path h.stem) with
          | nil => exact join_run (fun _ i => ih i) _ _
          | cons b rest' => exact run_liftM ..

theorem merge_run {s t : Tree} :
    (m.merge s t depth).run L.toPartial = (m.withLoader L).merge s t depth := by
  induction s, t, depth using Merging.merge.induct with
  | case1 depth t =>
      rw [merge.eq_1, Merger.merge.eq_1]
      rfl
  | case2 depth s hne =>
      rw [merge.eq_2 _ _ _ hne, Merger.merge.eq_2 _ _ _ hne]
      rfl
  | case3 depth r t hne =>
      rw [merge.eq_3 _ t _ r hne, Merger.merge.eq_3 _ t _ r hne]
      exact mergeLeaf_run
  | case4 depth s r hne hnode =>
      rw [merge.eq_4 _ s _ r hne hnode, Merger.merge.eq_4 _ s _ r hne hnode]
      exact mergeLeaf_run
  | case5 depth h c h' c' common below hrest hrest' =>
      rename_i ih
      rw [merge_join rfl hrest hrest', Static.merge_join rfl hrest hrest']
      exact join_run ih _ _
  | case6 depth h c h' c' common below b rest hrest hrest' longer =>
      rename_i ih
      rw [merge_join_older rfl hrest hrest', Static.merge_join_older rfl hrest hrest']
      exact join_run (fun i _ => ih i) _ _
  | case7 depth h c h' c' common below a rest hrest hrest' longer =>
      rename_i ih
      rw [merge_join_newer rfl hrest hrest', Static.merge_join_newer rfl hrest hrest']
      exact join_run (fun _ j => ih j) _ _
  | case8 depth h c h' c' common a rest b rest' hrest =>
      rename_i hrest'
      rw [merge_fork rfl hrest hrest', Static.merge_fork rfl hrest hrest']
      exact run_liftM ..

end Asking.Merging

theorem Asking.merge_run {newer older : StaticTree} {p : ShapePolicy} :
    (Asking.merge newer older p).run L.toPartial = newer.merge older L p := by
  rw [Asking.merge, StaticTree.merge]
  split
  · rfl
  · dsimp only
    rw [run_bind, Merging.merge_run]
    refine bind_congr fun merged => ?_
    split <;> rfl

end Static

/-! ## Indexes

An index is an index without a loader, and a loader. -/

namespace Index.Core

open RadixIndex.Asking (run_bind run_pure run_ite)

/-- The index with a loader. -/
def withLoader (x : Core) (L : Loader) : Index := ⟨x.config, L, x.dynamic, x.frozen⟩

variable {x : Core}

/-! ### Reading and writing -/

theorem get_run : (x.get key).run L.toPartial = .ok ((x.withLoader L).get key) := by
  rw [get, Index.get, run_bind, Dynamic.Asking.get_run, ok_bind]
  show _ = Except.ok ((x.dynamic.get L key).or (x.frozen.get L key))
  cases x.dynamic.get L key with
  | none => exact Static.Asking.get_run
  | some r => rfl

theorem getChecked_run : (x.getChecked key).run L.toPartial = (x.withLoader L).getChecked key := by
  rw [getChecked, Index.getChecked, run_bind, Dynamic.Asking.getChecked_run]
  refine bind_congr fun found => ?_
  cases found with
  | none => exact Static.Asking.get_run
  | some r => rfl

theorem merge_run : (fun a => (a.1.withLoader L, a.2)) <$> x.merge.run L.toPartial =
    (x.withLoader L).merge := by
  rw [merge, Index.merge, run_ite, apply_ite (Functor.map _)]
  congr 1
  rw [run_bind, Dynamic.Asking.freeze_run, map_bind]
  refine bind_congr fun fresh => ?_
  rw [run_ite, apply_ite (Functor.map _)]
  congr 1
  rw [run_bind, Static.Asking.merge_run, map_bind]
  rfl

theorem mergeIfDue_run : (fun x => x.withLoader L) <$> x.mergeIfDue.run L.toPartial =
    (x.withLoader L).mergeIfDue := by
  rw [mergeIfDue, Index.mergeIfDue, run_ite, apply_ite (Functor.map _)]
  congr 1
  rw [← merge_run, run_bind, map_bind, bind_map_left]
  rfl

theorem insert_run : (fun a => (a.1, a.2.withLoader L)) <$> (x.insert key record).run L.toPartial =
    (x.withLoader L).insert key record := by
  rw [insert, Index.insert, run_bind, map_bind, ← mergeIfDue_run, bind_map_left]
  refine bind_congr fun y => ?_
  rw [run_bind, Dynamic.Asking.insert_run, map_bind]
  rfl

theorem upsert_run : (fun x => x.withLoader L) <$> (x.upsert key record).run L.toPartial =
    (x.withLoader L).upsert key record := by
  rw [upsert, Index.upsert, run_bind, map_bind, ← mergeIfDue_run, bind_map_left]
  refine bind_congr fun y => ?_
  rw [run_bind, Dynamic.Asking.upsert_run, map_bind]
  rfl

theorem erase_run : (fun a => (a.1, a.2.withLoader L)) <$> (x.erase key).run L.toPartial =
    (x.withLoader L).erase key := by
  rw [erase, Index.erase, run_bind, Dynamic.Asking.erase_run, map_bind]
  rfl

/-! ### Scans -/

/-- The scan with a loader. -/
def Scan.withLoader (s : Scan) (L : Loader) : RadixIndex.Scan :=
  ⟨s.dynamic, s.frozen, L, s.keyLength⟩

theorem Scan.next_run {s : Scan} :
    (fun a => (a.1, a.2.withLoader L)) <$> s.next.run L.toPartial = .ok (s.withLoader L).next := by
  rw [Scan.next, RadixIndex.Scan.next]
  dsimp only [withLoader]
  cases s.dynamic.current with
  | none => cases s.frozen.current <;> rfl
  | some d =>
      cases s.frozen.current with
      | none => rfl
      | some f =>
          simp only [run_bind, Asking.run_load, L.toPartial_load, ok_bind]
          cases compare (L.load d s.keyLength) (L.load f s.keyLength) <;> rfl

theorem Scan.take_run {s : Scan} (n : Nat) :
    (s.take n).run L.toPartial = .ok ((s.withLoader L).take n) := by
  induction n generalizing s with
  | zero => rfl
  | succ n ih =>
      obtain ⟨⟨found, s'⟩, hnext, heq⟩ := map_eq_ok.mp (Scan.next_run (s := s) (L := L))
      rw [Scan.take, RadixIndex.Scan.take, run_bind, hnext, ok_bind, ← heq]
      cases found with
      | none => rfl
      | some r =>
          dsimp only
          rw [run_bind, ih]
          rfl

theorem lowerBound_run : (fun s => s.withLoader L) <$> (x.lowerBound key).run L.toPartial =
    (x.withLoader L).lowerBound key := by
  rw [lowerBound, Index.lowerBound, run_bind, Asking.lowerBound_run, map_bind]
  refine bind_congr fun dynamic => ?_
  rw [run_bind, Asking.lowerBound_run, map_bind]
  rfl

theorem scan_run (n : Nat) :
    (x.scan key n).run L.toPartial = (x.withLoader L).scan key n := by
  rw [scan, Index.scan, run_bind, ← lowerBound_run, bind_map_left]
  exact bind_congr fun s => s.take_run n

end Index.Core

end RadixIndex
