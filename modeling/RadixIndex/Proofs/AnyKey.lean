/-
# Keys of any length

Point operations on the trees that there can be, given a key of whatever length and a loader
that need not be that of the tree (`answers_any_key`).

    looking up, replacing      answer for every key
    finding the lower bound    answers for a key that is at least as long as those of the tree
    inserting, erasing         stop with a fault just for a key of another length
    storing in any case        stops with a fault just for a key of another length that is not
                               found

Offsets are the only numbers that grow on the way down, and none exceeds the length of the
keys of the tree: a node and its stem end before it.
-/
import RadixIndex.Proofs.Beginning
import RadixIndex.Proofs.Dynamic.Answering
import RadixIndex.Proofs.Static.Union
import RadixIndex.Proofs.Trail

namespace RadixIndex

/-! ## Reading from either tree -/

/-- Reading from a tree for keys of `n` bytes answers for `key`, asking the loader `M`, and
`found` is what is looked up. -/
structure Tree.ReadsAny {H : Type} [NodeHeader H] (M : Loader) (n : Nat) (t : Tree H) (key : Key)
    (found : Option Record) : Prop where
  /-- Every node ends before the keys do. -/
  offsets : ∀ x ∈ t.placed 0, x.1 + x.2.stemLength < n
  get : t.getGuarded M key 0 false = .ok found
  cursor : n ≤ key.length → ∃ cur, Cursor.lowerBound M t key = .ok cur
  trail : n ≤ key.length → ∃ trail, Trail.lowerBound M t key = .ok trail

theorem Tree.readsAny {H : Type} [NodeHeader H] [LawfulPositions H] [LawfulHeader H]
    {L M : Loader} {n : Nat} {t : Tree H} (ht : t = .empty ∨ t.Fits L n [])
    (hn : n ≤ Key.maxOffset) {key : Key} {found : Option Record}
    (hfound : ∀ a, t.getGuarded M key 0 false = .ok a → a = found) :
    t.ReadsAny M n key found := by
  have hget : ∃ a, t.getGuarded M key 0 false = .ok a :=
    getGuarded_answers_of_root (rooted_of_root ht) hn
  have hcursor : n ≤ key.length → ∃ cur, Cursor.lowerBound M t key = .ok cur := by
    intro hk
    rcases ht with rfl | ht
    · exact ⟨_, rfl⟩
    · exact Cursor.seekFrom_answers M ht hk []
  refine ⟨?_, ?_, hcursor, ?_⟩
  · intro x hx
    rcases ht with rfl | ht
    · exact absurd hx List.not_mem_nil
    · obtain ⟨path, stem, hdepth, hnd⟩ := ht.stands_of_mem_placed hx
      rw [hdepth, hnd.stemLength_eq]
      exact hnd.length_lt
  · obtain ⟨a, ha⟩ := hget
    rw [ha, hfound a ha]
  · intro hk
    obtain ⟨cur, hcur⟩ := hcursor hk
    -- A trail stops with a fault only where the cursor does.
    rw [← Trail.toCursor_lowerBound] at hcur
    cases htrail : Trail.lowerBound M t key with
    | error fault =>
        rw [htrail] at hcur
        exact absurd hcur nofun
    | ok trail => exact ⟨trail, rfl⟩

/-! ## Dynamic trees -/

namespace DynamicTree

/-- A dynamic tree for keys of `n` bytes has an answer for `key`, asking the loader `M`, unless
it is to be inserted or erased and has another length. -/
structure AnswersAny (M : Loader) (n : Nat) (t : DynamicTree) (key : Key) (record : Record) :
    Prop where
  reads : t.root.ReadsAny M n key (t.get M key)
  getChecked : ∃ found, t.getChecked M key = .ok found
  update : t.updateInPlace M key record = .ok (t.update M key record)
  insert : (∃ fault, t.insert M key record = .error fault) ↔ key.length ≠ n
  erase : (∃ fault, t.erase M key = .error fault) ↔ key.length ≠ n
  upsert : (∃ fault, t.upsert M key record = .error fault) ↔
    key.length ≠ n ∧ t.get M key = none
  /-- With its offsets guarded it answers the same. -/
  upsertInPlace : t.upsertInPlace M key record = t.upsert M key record

namespace Refines

variable {L : Loader} {n : Nat} {t : DynamicTree} {m : Contents} (h : t.Refines L n m)
  (M : Loader) {key : Key} (record : Record)

include h

theorem getChecked_answers (key : Key) : ∃ found, t.getChecked M key = .ok found := by
  rw [getChecked]
  rcases h.fits with hroot | hroot
  · rw [hroot]
    exact ⟨none, rfl⟩
  · exact Dynamic.Tree.getCheckedFrom_answers M hroot

theorem updateInPlace_eq (hn : n ≤ Key.maxOffset) (key : Key) :
    t.updateInPlace M key record = .ok (t.update M key record) := by
  have hanswers : ∃ a, t.updateInPlace M key record = .ok a := by
    rw [updateInPlace]
    rcases h.fits with hroot | hroot
    · rw [hroot]
      exact ⟨_, rfl⟩
    · obtain ⟨a, ha⟩ := Dynamic.Tree.updateInPlace_answers M key record hroot hn false
      have ha : t.root.updateInPlace M key record 0 false = .ok a := ha
      rw [ha]
      exact ⟨_, rfl⟩
  obtain ⟨a, ha⟩ := hanswers
  rw [ha, updateInPlace_agrees ha]

theorem insert_answers (hk : key.length = n) : ∃ a, t.insert M key record = .ok a := by
  have hlen : ¬ key.length ≠ t.keyLength := fun hne => hne (hk.trans h.keyLength_eq.symm)
  have hroot : ∃ a, t.root.insertFrom M key record 0 t.stats = .ok a := by
    rcases h.root with hroot | hroot
    · rw [hroot]
      exact ⟨_, rfl⟩
    · rw [h.stats_eq, ← add_zero t.root.recount]
      exact Dynamic.Tree.insertFrom_answers M record hroot hk 0
  obtain ⟨a, ha⟩ := hroot
  rw [insert, if_neg hlen]
  dsimp only
  rw [ha]
  cases a <;> exact ⟨_, rfl⟩

theorem erase_answers (hk : key.length = n) : ∃ a, t.erase M key = .ok a := by
  have hlen : ¬ key.length ≠ t.keyLength := fun hne => hne (hk.trans h.keyLength_eq.symm)
  rw [erase, if_neg hlen]
  dsimp only
  rcases h.root with hroot | hroot
  · rw [hroot]
    exact ⟨_, rfl⟩
  · have hsize : ¬ t.size = 0 := by
      rw [h.size_eq]
      exact Nat.ne_of_gt (List.length_pos_iff_exists_mem.mpr hroot.fits.exists_mem)
    obtain ⟨a, ha⟩ := Dynamic.Tree.eraseFrom_answers M hroot hk 0
    have ha : t.root.eraseFrom M key 0 t.stats = .ok a := by
      rw [h.stats_eq, ← add_zero t.root.recount]
      exact ha
    rw [ha, ok_bind]
    cases a with
    | none => exact ⟨_, rfl⟩
    | some a =>
        dsimp only
        rw [if_neg hsize]
        exact ⟨_, rfl⟩

theorem insert_error_iff :
    (∃ fault, t.insert M key record = .error fault) ↔ key.length ≠ n := by
  constructor
  · rintro ⟨fault, hfault⟩ hk
    obtain ⟨a, ha⟩ := h.insert_answers M record hk
    exact absurd (hfault.symm.trans ha) nofun
  · intro hne
    rw [insert, if_pos (h.keyLength_eq ▸ hne)]
    exact ⟨.keyLength, rfl⟩

theorem erase_error_iff : (∃ fault, t.erase M key = .error fault) ↔ key.length ≠ n := by
  constructor
  · rintro ⟨fault, hfault⟩ hk
    obtain ⟨a, ha⟩ := h.erase_answers M hk
    exact absurd (hfault.symm.trans ha) nofun
  · intro hne
    rw [erase, if_pos (h.keyLength_eq ▸ hne)]
    exact ⟨.keyLength, rfl⟩

theorem upsert_error_iff : (∃ fault, t.upsert M key record = .error fault) ↔
    key.length ≠ n ∧ t.get M key = none := by
  have hsome : (t.update M key record).1 = (t.get M key).isSome := by
    rw [get, ← Dynamic.Tree.isSome_updateFrom record, update]
    cases t.root.updateFrom M key record 0 false <;> rfl
  rw [upsert]
  cases hu : t.update M key record with
  | mk updated t' =>
      rw [hu] at hsome
      cases updated with
      | true =>
          constructor
          · rintro ⟨_, hfault⟩
            cases hfault
          · rintro ⟨-, hnone⟩
            rw [hnone] at hsome
            cases hsome
      | false =>
          obtain rfl := update_refused hu
          have hnone : t'.get M key = none :=
            Option.isNone_iff_eq_none.mp (Option.isSome_eq_false_iff.mp hsome.symm)
          rw [and_iff_left hnone, ← h.insert_error_iff M record]
          exact exists_congr fun _ => bind_pure_eq_error

theorem upsertInPlace_eq (hn : n ≤ Key.maxOffset) (key : Key) :
    t.upsertInPlace M key record = t.upsert M key record := by
  rw [upsertInPlace, upsert, h.updateInPlace_eq M record hn, ok_bind]
  cases t.update M key record with
  | mk updated t' =>
      cases updated with
      | true => rfl
      | false =>
          dsimp only
          rw [if_neg Bool.false_ne_true, insertInPlace_eq]

theorem answersAny (hn : n ≤ Key.maxOffset) (key : Key) : t.AnswersAny M n key record where
  reads := RadixIndex.Tree.readsAny h.fits hn fun _ => Dynamic.Tree.getGuarded_agrees
  getChecked := h.getChecked_answers M key
  update := h.updateInPlace_eq M record hn key
  insert := h.insert_error_iff M record
  erase := h.erase_error_iff M
  upsert := h.upsert_error_iff M record
  upsertInPlace := h.upsertInPlace_eq M record hn key

end Refines

end DynamicTree

/-- Every dynamic and every static tree that there can be, whatever loader is asked: the loader
with which the records were stored or another one. -/
theorem answers_any_key {L : Loader} {n : Nat} (hn : n < 2 ^ 32) :
    (∀ t : DynamicTree, t.Reachable L n → ∀ (M : Loader) (key : Key) (record : Record),
      t.AnswersAny M n key record) ∧
    ∀ t : StaticTree, t.Reachable L n → ∀ (M : Loader) (key : Key),
      t.root.ReadsAny M n key (t.get M key) := by
  have hroom : n ≤ Key.maxOffset := by
    rw [Key.maxOffset]
    omega
  constructor
  · intro t ht M key record
    obtain ⟨m, hm⟩ := ht.refines
    exact hm.answersAny M record hroom key
  · intro t ht M key
    obtain ⟨m, hm⟩ := ht.refines
    exact Tree.readsAny hm.fits hroom fun _ => Static.Tree.getGuarded_agrees

/-- Stored under the low-order bytes of the records and asked for with all bytes, and keys that
are shorter and longer than the stem of the only node. -/
theorem answers_any_key_of_other_loader :
    let L := Loader.modulo 65536
    let M := Loader.bigEndian
    ∃ (t : DynamicTree) (f : StaticTree), t.size = 2 ∧ t.histogram.longStems = 1 ∧
      t.freeze L {} = .ok (f, .empty 20) ∧ t.AnswersAny M 20 [] 3 ∧
      t.AnswersAny M 20 (List.replicate 30 0) 3 ∧ t.AnswersAny M 20 (List.replicate 20 0) 3 ∧
      f.root.ReadsAny M 20 [0, 0, 0] (f.get M [0, 0, 0]) := by
  have hmade : ∃ t : DynamicTree, t.size = 2 ∧ t.histogram.longStems = 1 ∧
      t.Reachable (.modulo 65536) 20 := by
    refine ⟨_, ?_, ?_, .write (w := .insert ((Loader.modulo 65536).load 2 20) 2)
      (.write (w := .insert ((Loader.modulo 65536).load 65537 20) 65537) .empty ⟨rfl, rfl⟩ rfl)
      ⟨rfl, rfl⟩ rfl⟩
    · rfl
    · rfl
  obtain ⟨t, hsize, hlong, ht⟩ := hmade
  obtain ⟨m, hm⟩ := ht.refines
  obtain ⟨f, hfreeze, -⟩ := StaticTree.freeze_ok hm {}
  have hanswers := (answers_any_key (L := .modulo 65536) (n := 20) (by decide)).1 t ht
  exact ⟨t, f, hsize, hlong, hfreeze, hanswers _ _ _, hanswers _ _ _, hanswers _ _ _,
    (answers_any_key (by decide)).2 f (.freeze ht hfreeze) _ _⟩

end RadixIndex
