/-
# Looking up with every byte checked

The pessimistic way down compares every stem as a whole, the part that a node does not keep
with the key of the smallest leaf below; the optimistic way passes over such stems and
compares the whole key at the leaf.  For a key that is there both find its record.  For one
that is not they can part ways: the pessimistic search stops at the first stem that the key
leaves, while the optimistic one goes on below it, where the key cannot be, and is turned
back at a leaf at the latest.

So the two agree (`getCheckedFrom_eq`): as long as the key follows the stems they take the
same steps, and where it leaves one the optimistic search finds nothing either, because no
record below has the key.
-/
import RadixIndex.Proofs.Index.Trees
import RadixIndex.Proofs.Stem

namespace RadixIndex

namespace Dynamic.Tree

variable {L : Loader} {n : Nat} {path stem key : Key}

section Step

variable {h : Header} {c : Fin (NodeHeader.width h) → Tree}

/-- A key that leaves the stem is not found on either way. -/
theorem getCheckedFrom_of_not_stem (hnd : (Node.mk h c).Stands L n path stem)
    (hk : key.length = n) (hp : path <+: key) (hstem : ¬ path ++ stem <+: key) :
    getCheckedFrom L key (.node h c) path.length = .ok none := by
  have hlen : h.stem.length = stem.length := hnd.stemLength_eq
  have hroom := hnd.length_lt
  have hne : Key.commonLength stem (key.drop path.length) ≠ stem.length := fun he =>
    hstem ((Key.commonLength_stem hp).mp he)
  rw [getCheckedFrom, if_neg (by omega), hnd.rooted.stemMatch_eq hk, ok_bind, hlen, if_pos hne,
    pure_eq_ok]

/-- A key that follows the stem is looked for below the byte after it. -/
theorem getCheckedFrom_of_byte (hnd : (Node.mk h c).Stands L n path stem)
    (hk : key.length = n) {b : UInt8} (hb : path ++ stem ++ [b] <+: key) :
    getCheckedFrom L key (.node h c) path.length =
      match RadixIndex.Node.find ⟨h, c⟩ b with
      | none => .ok none
      | some i => getCheckedFrom L key (c i) (path ++ stem ++ [b]).length := by
  have hlen : h.stem.length = stem.length := hnd.stemLength_eq
  have hroom := hnd.length_lt
  have hstem := Key.prefix_of_append hb
  have hmatch := (Key.commonLength_stem (Key.prefix_of_append hstem)).mpr hstem
  have hbyte := Key.getElem?_of_path hb
  rw [List.length_append] at hbyte
  rw [getCheckedFrom, if_neg (by omega), hnd.rooted.stemMatch_eq hk, ok_bind, hmatch, hlen,
    if_neg (absurd rfl)]
  dsimp only
  rw [hbyte, Key.length_below, RadixIndex.Node.find]
  dsimp only
  cases NodeHeader.find h (fun i => !(c i).isEmpty) b <;> rfl

end Step

/-- Checking every byte answers, and finds what is found without.  On the optimistic way some
of the bytes that led here may be unseen; here the key has all of them. -/
theorem getCheckedFrom_eq {t : Tree} (ht : t.Fits L n path) (hk : key.length = n)
    (hp : path <+: key) (skipped : Bool) :
    getCheckedFrom L key t path.length = .ok (getFrom L key t path.length skipped) := by
  induction ht generalizing skipped with
  | @leaf path r hr =>
      have hchecked := Loader.matchesFrom_iff hk hr hp
      have hleaf : L.matchesFrom r key (if skipped then 0 else path.length) = true ↔
          L.load r n = key := matches_leaf hr hk fun _ => hp
      rw [getCheckedFrom, getFrom]
      simp only [hchecked, hleaf]
  | @node path stem h c hsound hspells htwo hbelow ih =>
      have hnd : (Node.mk h c).Stands L n path stem := ⟨hsound, hspells, htwo, hbelow⟩
      by_cases hstem : path ++ stem <+: key
      · have hroom := hnd.length_lt
        obtain ⟨b, hb⟩ := Key.exists_byte hstem (by rw [List.length_append]; omega)
        have hbranch := Node.branch_of_path (Node.spells_iff.mp hspells) hb
        have hlen : path.length + h.stem.length + 1 = (path ++ stem ++ [b]).length := by
          rw [Key.length_below, show h.stem.length = stem.length from hnd.stemLength_eq]
        rw [getCheckedFrom_of_byte hnd hk hb, getFrom_node, hbranch]
        cases hfind : RadixIndex.Node.find ⟨h, c⟩ b with
        | none => rfl
        | some i =>
            rw [Option.bind_some, hlen]
            exact ih _ (hsound.mem_children_of_find hfind) hb _
      · -- Below a stem that the key leaves there is no record with the key.
        have hnone : getFrom L key (.node h c) path.length skipped = none := by
          refine (getFrom_eq_none hnd.fits hk fun _ => hp).mpr ?_
          intro r hr hload
          exact hstem (hload ▸ hnd.stem_of_mem hr)
        rw [getCheckedFrom_of_not_stem hnd hk hp hstem, hnone]

end Dynamic.Tree

/-! ## Whole trees and indexes -/

theorem DynamicTree.Refines.getChecked_eq {L : Loader} {n : Nat} {t : DynamicTree} {m : Contents}
    (h : t.Refines L n m) {key : Key} (hk : key.length = n) :
    t.getChecked L key = .ok (t.get L key) := by
  rw [getChecked, get]
  rcases h.fits with hroot | hroot
  · rw [hroot]
    rfl
  · exact Dynamic.Tree.getCheckedFrom_eq hroot hk List.nil_prefix false

/-- Whatever writes made a dynamic tree and whatever operations made an index, a key of the
right length, stored or not, is found alike with and without checking every byte. -/
theorem getChecked_agrees (L : Loader) :
    (∀ (n : Nat) (t : DynamicTree), t.Reachable L n → ∀ key : Key, key.length = n →
      t.getChecked L key = .ok (t.get L key)) ∧
    ∀ (c : Config) (x : Index), x.Reachable c L → ∀ key : Key, key.length = c.keyLength →
      x.getChecked key = .ok (x.get key) := by
  constructor
  · intro n t ht key hk
    obtain ⟨m, hm⟩ := ht.refines
    exact hm.getChecked_eq hk
  · intro c x hx key hk
    obtain ⟨s, hs⟩ := hx.refines
    have hdynamic : x.dynamic.getChecked x.loader key = .ok (x.dynamic.get x.loader key) := by
      rw [hs.loader_eq]
      exact hs.dynamic.getChecked_eq hk
    rw [Index.getChecked, hdynamic]
    rfl

/-- A key that leaves the stem where the node does not keep it, and a stem twice as long as
what a node keeps. -/
theorem getChecked_agrees_of_long_stem :
    let L := Loader.modulo 65536
    let c : Config := { keyLength := 20 }
    let key : Key := [0, 0, 0, 0, 0, 0, 0, 0, 0, 0, 0, 0, 7, 0, 0, 0, 0, 0, 0, 1]
    (∃ t : DynamicTree, t.size = 2 ∧ t.histogram.longStems = 1 ∧ t.Reachable L 20 ∧
      t.getChecked L key = .ok (t.get L key)) ∧
    ∃ x, (Index.new c L).performAll [.upsert (L.load 1 20) 1, .upsert (L.load 2 20) 2] = .ok x ∧
      x.Reachable c L ∧ x.getChecked key = .ok (x.get key) := by
  have hmade : ∃ t : DynamicTree, t.size = 2 ∧ t.histogram.longStems = 1 ∧
      t.Reachable (.modulo 65536) 20 := by
    refine ⟨_, ?_, ?_, .write (w := .insert ((Loader.modulo 65536).load 2 20) 2)
      (.write (w := .insert ((Loader.modulo 65536).load 1 20) 1) .empty ⟨rfl, rfl⟩ rfl)
      ⟨rfl, rfl⟩ rfl⟩
    · rfl
    · rfl
  obtain ⟨t, hsize, hlong, ht⟩ := hmade
  obtain ⟨x, hrun, hx⟩ := Index.exists_reachable (c := { keyLength := 20 }) rfl (.modulo 65536)
    [.upsert ((Loader.modulo 65536).load 1 20) 1, .upsert ((Loader.modulo 65536).load 2 20) 2]
    (by decide)
  exact ⟨⟨t, hsize, hlong, ht, (getChecked_agrees _).1 20 t ht _ rfl⟩,
    x, hrun, hx, (getChecked_agrees _).2 _ x hx _ rfl⟩

end RadixIndex
