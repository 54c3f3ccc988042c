/-
# Writing in place is writing

A write in place hands back a slot for every slot it was given, and a flag.  It answers when
the write that may keep the tree answers, and where that one answers that nothing changes it
hands back what it was given with a flag that is not set (`insertInPlace_eq`,
`eraseInPlace_eq`): each slot on the way gets back the child that was in it, and a node with
its own child put back is the same node.

This needs nothing of the tree.  It holds where a write that did change something would stop
with a fault, and of trees that no writes make.
-/
import RadixIndex.Dynamic.InPlace
import RadixIndex.Proofs.Dynamic.Refines
import RadixIndex.Proofs.Guarded

namespace RadixIndex

namespace Dynamic.Tree

variable {L : Loader} {key : Key} {record : Record}

/-- What a write hands back for a slot with `t`, by what it answers on `t`. -/
def written (t : Tree) (s : Stats) : Option (Tree × Stats) → Bool × Tree × Stats
  | none => (false, t, s)
  | some (t', s') => (true, t', s')

/-- A slot below a node gets back what was handed back for it. -/
theorem written_below {h : Header} {c : Fin (NodeHeader.width h) → Tree}
    {i : Fin (NodeHeader.width h)} {s : Stats} (a : Option (Tree × Stats)) :
    ((written (c i) s a).1, ((RadixIndex.Node.mk h c).setChild i (written (c i) s a).2.1).toTree,
        (written (c i) s a).2.2) =
      written (.node h c) s
        (a.map fun (t, s) => (((RadixIndex.Node.mk h c).setChild i t).toTree, s)) := by
  cases a with
  | none =>
      rw [written, RadixIndex.Node.setChild_self]
      rfl
  | some a => rfl

theorem insertInPlace_eq (t : Tree) (depth : Nat) (s : Stats) :
    insertInPlace L key record t depth s = (do
      return written t s (← insertFrom L key record t depth s)) := by
  induction t generalizing depth s with
  | empty => rfl
  | leaf existing =>
      rw [insertInPlace, insertFrom]
      cases Key.suffix key depth with
      | error fault => rfl
      | ok rest =>
          rw [ok_bind, ok_bind]
          dsimp only
          split
          · rfl
          · cases Node.splitLeaf existing record _ key depth _ s <;> rfl
  | node h c ih =>
      rw [insertInPlace, insertFrom]
      dsimp only
      cases (RadixIndex.Node.mk h c).stemMatch L key depth with
      | error fault => rfl
      | ok mismatch =>
          rw [ok_bind, ok_bind]
          split
          · cases Node.splitStem L ⟨h, c⟩ key depth mismatch record s <;> rfl
          · cases Key.byteAt key (depth + h.stem.length) with
            | error fault => rfl
            | ok byte =>
                rw [ok_bind, ok_bind]
                cases NodeHeader.find h (fun i => !(c i).isEmpty) byte with
                | none => cases Node.addChild ⟨h, c⟩ byte (.leaf record) s <;> rfl
                | some i =>
                    dsimp only
                    rw [ih]
                    cases insertFrom L key record (c i) (depth + h.stem.length + 1) s with
                    | error fault => rfl
                    | ok a => exact congrArg Except.ok (written_below a)

theorem eraseInPlace_eq (t : Tree) (depth : Nat) (s : Stats) :
    eraseInPlace L key t depth s = (do return written t s (← eraseFrom L key t depth s)) := by
  induction t generalizing depth s with
  | empty => rfl
  | leaf r =>
      rw [eraseInPlace, eraseFrom]
      cases L.matchesFrom r key depth <;> rfl
  | node h c ih =>
      rw [eraseInPlace, eraseFrom]
      dsimp only
      cases (RadixIndex.Node.mk h c).stemMatch L key depth with
      | error fault => rfl
      | ok matched =>
          rw [ok_bind, ok_bind]
          split
          · rfl
          · cases Key.byteAt key (depth + h.stem.length) with
            | error fault => rfl
            | ok byte =>
                rw [ok_bind, ok_bind]
                cases NodeHeader.find h (fun i => !(c i).isEmpty) byte with
                | none => rfl
                | some i =>
                    dsimp only
                    split
                    · cases Node.removeChild ⟨h, c⟩ byte s with
                      | error fault => rfl
                      | ok a =>
                          obtain ⟨removed, left, s'⟩ := a
                          rw [ok_bind, ok_bind]
                          dsimp only
                          cases Node.settle left s' <;> rfl
                    · rw [ih]
                      cases eraseFrom L key (c i) (depth + h.stem.length + 1) s with
                      | error fault => rfl
                      | ok a => exact congrArg Except.ok (written_below a)

/-! ## Replacing -/

/-- What replacing a record hands back for a slot with `t`. -/
def replaced (t : Tree) : Option Tree → Bool × Tree
  | none => (false, t)
  | some t' => (true, t')

theorem replaced_below {h : Header} {c : Fin (NodeHeader.width h) → Tree}
    {i : Fin (NodeHeader.width h)} (a : Option Tree) :
    ((replaced (c i) a).1,
        ((RadixIndex.Node.mk h c).setChild i (replaced (c i) a).2).toTree) =
      replaced (.node h c)
        (a.map fun t => ((RadixIndex.Node.mk h c).setChild i t).toTree) := by
  cases a with
  | none =>
      rw [replaced, RadixIndex.Node.setChild_self]
      rfl
  | some t => rfl

theorem updateInPlace_leaf (r : Record) (depth : Nat) (skipped : Bool) :
    updateInPlace L key record (.leaf r) depth skipped =
      .ok (replaced (.leaf r) (updateFrom L key record (.leaf r) depth skipped)) := by
  rw [updateInPlace, updateFrom, Loader.matchesGuarded_eq, ok_bind]
  cases L.matchesFrom r key (if skipped then 0 else depth) <;> rfl

theorem updateInPlace_node {h : Header} {c : Fin (NodeHeader.width h) → Tree} {depth : Nat}
    {skipped : Bool} : updateInPlace L key record (.node h c) depth skipped = (do
      let stop ← Key.advance depth (RadixIndex.Node.mk h c).stemLength
      match (RadixIndex.Node.mk h c).way key depth with
      | none => return (false, .node h c)
      | some i =>
          let (updated, t) ← updateInPlace L key record (c i) (← Key.advance stop 1)
            (skipped || (RadixIndex.Node.mk h c).cutsStem)
          return (updated, ((RadixIndex.Node.mk h c).setChild i t).toTree)) := by
  rw [updateInPlace, RadixIndex.Node.way]
  dsimp only
  cases hstop : Key.advance depth (RadixIndex.Node.mk h c).stemLength with
  | error fault => rfl
  | ok stop =>
      obtain ⟨-, rfl⟩ := Key.advance_eq_ok.mp hstop
      rw [ok_bind, ok_bind]
      split
      · cases key[depth + (RadixIndex.Node.mk h c).stemLength]? with
        | none => rfl
        | some b =>
            dsimp only [Option.bind_some, RadixIndex.Node.find]
            cases NodeHeader.find h (fun i => !(c i).isEmpty) b <;> rfl
      · rfl

/-- Where replacing in place answers, it is replacing. -/
theorem updateInPlace_agrees {t : Tree} {depth : Nat} {skipped : Bool} {a : Bool × Tree}
    (h : updateInPlace L key record t depth skipped = .ok a) :
    a = replaced t (updateFrom L key record t depth skipped) := by
  induction t generalizing depth skipped a with
  | empty => exact (Except.ok.inj h).symm
  | leaf r =>
      rw [updateInPlace_leaf] at h
      exact (Except.ok.inj h).symm
  | node header c ih =>
      rw [updateInPlace_node, Node.way_eq, Node.cutsStem_eq] at h
      obtain ⟨stop, hstop, h⟩ := bind_eq_ok.mp h
      obtain ⟨-, rfl⟩ := Key.advance_eq_ok.mp hstop
      rw [updateFrom_node]
      cases hbranch : Node.branch ⟨header, c⟩ key depth with
      | none =>
          rw [hbranch] at h
          exact (Except.ok.inj h).symm
      | some i =>
          rw [hbranch] at h
          obtain ⟨below, hnext, h⟩ := bind_eq_ok.mp h
          obtain ⟨-, rfl⟩ := Key.advance_eq_ok.mp hnext
          obtain ⟨b, hb, h⟩ := bind_eq_ok.mp h
          obtain rfl := ih i hb
          exact (Except.ok.inj h).symm.trans (replaced_below _)

/-! ## Slots that nothing is written to -/

variable {t t' : Tree} {depth : Nat} {s s' : Stats}

theorem written_refused {a : Option (Tree × Stats)} (h : written t s a = (false, t', s')) :
    t' = t ∧ s' = s := by
  cases a with
  | none =>
      obtain ⟨-, h⟩ := Prod.mk.inj h
      obtain ⟨rfl, rfl⟩ := Prod.mk.inj h
      exact ⟨rfl, rfl⟩
  | some a => exact absurd (Prod.mk.inj h).1 nofun

theorem insertInPlace_refused (h : insertInPlace L key record t depth s = .ok (false, t', s')) :
    t' = t ∧ s' = s := by
  rw [insertInPlace_eq] at h
  obtain ⟨a, -, h⟩ := bind_eq_ok.mp h
  exact written_refused (Except.ok.inj h)

theorem eraseInPlace_refused (h : eraseInPlace L key t depth s = .ok (false, t', s')) :
    t' = t ∧ s' = s := by
  rw [eraseInPlace_eq] at h
  obtain ⟨a, -, h⟩ := bind_eq_ok.mp h
  exact written_refused (Except.ok.inj h)

theorem updateInPlace_refused {skipped : Bool}
    (h : updateInPlace L key record t depth skipped = .ok (false, t')) : t' = t := by
  have h := updateInPlace_agrees h
  cases hu : updateFrom L key record t depth skipped with
  | none =>
      rw [hu] at h
      exact (Prod.mk.inj h).2
  | some root =>
      rw [hu] at h
      exact absurd (Prod.mk.inj h).1 nofun

end Dynamic.Tree

/-! ## Whole trees -/

namespace DynamicTree

open Dynamic.Tree (written replaced)

variable {L : Loader} {key : Key} {record : Record} {t t' : DynamicTree}

theorem insertInPlace_eq : t.insertInPlace L key record = t.insert L key record := by
  rw [insertInPlace, insert, Dynamic.Tree.insertInPlace_eq]
  split
  · rfl
  · cases t.root.insertFrom L key record 0 t.stats with
    | error fault => rfl
    | ok a => cases a <;> rfl

theorem eraseInPlace_eq : t.eraseInPlace L key = t.erase L key := by
  rw [eraseInPlace, erase, Dynamic.Tree.eraseInPlace_eq]
  split
  · rfl
  · cases t.root.eraseFrom L key 0 t.stats with
    | error fault => rfl
    | ok a =>
        cases a with
        | none => rfl
        | some a =>
            by_cases hsize : t.size = 0
            · simp [written, hsize]
            · simp [written, hsize]

theorem updateInPlace_agrees {a : Bool × DynamicTree}
    (h : t.updateInPlace L key record = .ok a) : t.update L key record = a := by
  rw [updateInPlace] at h
  obtain ⟨b, hb, h⟩ := bind_eq_ok.mp h
  obtain rfl := Dynamic.Tree.updateInPlace_agrees hb
  obtain rfl := Except.ok.inj h
  rw [update]
  cases t.root.updateFrom L key record 0 false <;> rfl

theorem upsertInPlace_agrees (h : t.upsertInPlace L key record = .ok t') :
    t.upsert L key record = .ok t' := by
  rw [upsertInPlace] at h
  obtain ⟨⟨updated, u⟩, hupdate, h⟩ := bind_eq_ok.mp h
  rw [upsert, updateInPlace_agrees hupdate]
  cases updated with
  | true => exact h
  | false =>
      dsimp only at h
      rw [if_neg Bool.false_ne_true, insertInPlace_eq] at h
      exact h

/-- A write done to a tree in place. -/
def writeInPlace (L : Loader) (t : DynamicTree) :
    Write → Except Fault (Option Bool × DynamicTree)
  | .insert key record => do
      let (inserted, t) ← t.insertInPlace L key record
      return (some inserted, t)
  | .update key record => do
      let (updated, t) ← t.updateInPlace L key record
      return (some updated, t)
  | .upsert key record => do
      return (none, ← t.upsertInPlace L key record)
  | .erase key => do
      let (erased, t) ← t.eraseInPlace L key
      return (some erased, t)

/-- Writing in place, where it answers, is writing. -/
theorem writeInPlace_agrees {w : Write} {a : Option Bool × DynamicTree}
    (h : t.writeInPlace L w = .ok a) : t.write L w = .ok a := by
  cases w with
  | insert key record =>
      rw [writeInPlace, insertInPlace_eq] at h
      exact h
  | update key record =>
      obtain ⟨⟨updated, u⟩, hupdate, h⟩ := bind_eq_ok.mp h
      rw [write, updateInPlace_agrees hupdate]
      exact h
  | upsert key record =>
      obtain ⟨u, hupsert, h⟩ := bind_eq_ok.mp h
      rw [write, upsertInPlace_agrees hupsert]
      exact h
  | erase key =>
      rw [writeInPlace, eraseInPlace_eq] at h
      exact h

/-! ## Writes that do nothing -/

theorem insert_refused (h : t.insert L key record = .ok (false, t')) : t' = t := by
  rw [insert] at h
  split at h
  · cases h
  · obtain ⟨a, -, h⟩ := bind_eq_ok.mp h
    cases a with
    | none => exact (Prod.mk.inj (Except.ok.inj h)).2.symm
    | some b => cases (Prod.mk.inj (Except.ok.inj h)).1

theorem update_refused (h : t.update L key record = (false, t')) : t' = t := by
  rw [update] at h
  split at h
  · exact (Prod.mk.inj h).2.symm
  · cases (Prod.mk.inj h).1

theorem erase_refused (h : t.erase L key = .ok (false, t')) : t' = t := by
  rw [erase] at h
  split at h
  · cases h
  · obtain ⟨a, -, h⟩ := bind_eq_ok.mp h
    cases a with
    | none => exact (Prod.mk.inj (Except.ok.inj h)).2.symm
    | some b =>
        dsimp only at h
        split at h
        · cases h
        · cases (Prod.mk.inj (Except.ok.inj h)).1

/-- A write that says it did nothing did nothing. -/
theorem write_refused {w : Write} (h : t.write L w = .ok (some false, t')) : t' = t := by
  cases w with
  | insert key record =>
      obtain ⟨⟨inserted, u⟩, hinsert, h⟩ := bind_eq_ok.mp h
      obtain ⟨hno, rfl⟩ := Prod.mk.inj (Except.ok.inj h)
      obtain rfl := Option.some.inj hno
      exact insert_refused hinsert
  | update key record =>
      obtain ⟨hno, rfl⟩ := Prod.mk.inj (Except.ok.inj h)
      exact update_refused (Prod.ext (Option.some.inj hno) rfl)
  | upsert key record =>
      obtain ⟨u, -, h⟩ := bind_eq_ok.mp h
      exact absurd (Prod.mk.inj (Except.ok.inj h)).1 nofun
  | erase key =>
      obtain ⟨⟨erased, u⟩, herase, h⟩ := bind_eq_ok.mp h
      obtain ⟨hno, rfl⟩ := Prod.mk.inj (Except.ok.inj h)
      obtain rfl := Option.some.inj hno
      exact erase_refused herase

end DynamicTree

end RadixIndex
