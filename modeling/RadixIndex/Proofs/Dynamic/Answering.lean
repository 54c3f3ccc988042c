/-
# Operations that always answer

A tree is firm under the loader that its records were stored with, and the keys written are
those of the records.  An operation may be given another loader, another record and another
key.  What it does then means little, but it does not stop with a fault, as long as the key
has the length of the keys of the tree, and for looking up and replacing not even that.

What this takes of the tree has to do with lengths only: a path and its stem are shorter than
the keys (`Node.Stands.length_lt`), nodes are sound, so a node with a byte missing has room or
can grow, and the counts are those of the nodes.
-/
import RadixIndex.Proofs.Dynamic.InPlace
import RadixIndex.Proofs.Dynamic.Erase
import RadixIndex.Proofs.Dynamic.Insert

namespace RadixIndex.Dynamic

variable {L : Loader} {n : Nat} {path stem key : Key} (M : Loader)

namespace Node

/-! ## New nodes -/

theorem splitLeaf_answers (existing record : Record) {existingKey : Key} {depth common : Nat}
    (hexisting : depth + common < existingKey.length) (hkey : depth + common < key.length)
    (s : Stats) : ∃ a, splitLeaf existing record existingKey key depth common s = .ok a := by
  obtain ⟨a, ha⟩ := Key.exists_byteAt hexisting
  obtain ⟨b, hb⟩ := Key.exists_byteAt hkey
  obtain ⟨first, nd, hfork⟩ := exists_fork (Stem.of ((key.drop depth).take common)) a b
    (.leaf existing) (.leaf record)
  rw [splitLeaf, Stem.make_ok (by rw [List.length_drop]; omega), ok_bind, ha, ok_bind,
    hfork.addFirst, ok_bind, hb]
  exact ⟨_, hfork.addSecond _⟩

theorem splitStem_answers {nd : Node} (hnd : nd.Stands L n path stem) (hk : key.length = n)
    (record : Record) {mismatch : Nat} (hlt : mismatch < stem.length) (s : Stats) :
    ∃ a, splitStem M nd key path.length mismatch record s = .ok a := by
  have hroom := hnd.length_lt
  obtain ⟨bytes, hbytes, hlength⟩ := hnd.rooted.fullStem_answers M
  have hinside : mismatch < bytes.length := hlength.symm ▸ hlt
  have hreach : path.length + mismatch < key.length := by omega
  obtain ⟨a, ha⟩ := Key.exists_byteAt hinside
  obtain ⟨b, hb⟩ := Key.exists_byteAt hreach
  rw [splitStem, hk, hbytes, ok_bind, ha, ok_bind, hnd.stemLength_eq,
    Stem.make_ok (by rw [List.length_drop]; omega), ok_bind]
  obtain ⟨first, nd', hfork⟩ := exists_fork (nd.header.stem.take mismatch) a b
    (withStem nd (Stem.of ((bytes.drop (mismatch + 1)).take (stem.length - mismatch - 1)))).toTree
    (.leaf record)
  rw [hfork.addFirst, ok_bind, hb]
  exact ⟨_, hfork.addSecond _⟩

/-- A node that has lost a child gives way to the last one or stays. -/
theorem settle_answers (nd : Node) (s : Stats) :
    ∃ a, settle nd (Tree.recount nd.toTree + s) = .ok a := by
  rw [settle]
  split
  · rename_i hlast
    obtain ⟨⟨stem, layout⟩, child⟩ := nd
    cases layout with
    | sixteen keys used => cases hlast.1
    | fortyEight table count => cases hlast.1
    | full count => cases hlast.1
    | four keys used =>
        have hcollapse : ∃ t, collapse ⟨⟨stem, .four keys used⟩, child⟩ = .ok t := by
          rw [collapse]
          split <;> exact ⟨_, rfl⟩
        obtain ⟨t, ht⟩ := hcollapse
        rw [ht, ok_bind, RadixIndex.Node.toTree, Tree.recount_node, add_assoc,
          Stats.free_one_add]
        exact ⟨_, rfl⟩
  · exact ⟨_, rfl⟩

/-- A leaf that a node has can be removed from it, whether or not the node is to be settled
then. -/
theorem removeLeaf_answers {nd : Node} (hnd : nd.Firm L n path stem) {b : UInt8} {r : Record}
    (hmem : (b, .leaf r) ∈ nd.children) (s : Stats) :
    ∃ removed nd' s' a, removeChild nd b (Tree.recount nd.toTree + s) = .ok (removed, nd', s') ∧
      settle nd' s' = .ok a := by
  obtain ⟨nd', hremove, -⟩ := removeChild_leaf hnd.stands.sound hnd.sized hmem s
  obtain ⟨a, ha⟩ := settle_answers nd' s
  exact ⟨_, nd', _, a, hremove, ha⟩

/-- The keys of the tree reach beyond the stem of a node, so a key as long as they are can be
compared with the stem and has a byte after it. -/
theorem reach_answers {nd : Node} (hnd : nd.Firm L n path stem) (hk : key.length = n) :
    (∃ matched, nd.stemMatch M key path.length = .ok matched) ∧
      ∃ b, Key.byteAt key (path.length + nd.header.stem.length) = .ok b := by
  have hlen : nd.header.stem.length = stem.length := hnd.stands.stemLength_eq
  have hreach : path.length + stem.length < key.length := hk ▸ hnd.stands.length_lt
  rw [hlen]
  exact ⟨hnd.stands.rooted.stemMatch_answers M (Nat.le_of_lt hreach), Key.exists_byteAt hreach⟩

end Node

namespace Tree

/-! ## Inserting -/

section Node

variable {h : Header} {c : Fin (NodeHeader.width h) → Tree}

theorem insertFrom_answers_leaf (existing record : Record) (hk : path.length ≤ key.length)
    (s : Stats) : ∃ a, insertFrom M key record (.leaf existing) path.length s = .ok a := by
  rw [insertFrom, Key.suffix_of_le hk, ok_bind]
  dsimp only
  split
  · exact ⟨_, rfl⟩
  · rename_i hlt
    have hkey := Nat.lt_of_not_le hlt
    have hexisting := hkey.trans_eq (M.length_load existing key.length).symm
    obtain ⟨a, ha⟩ := Node.splitLeaf_answers existing record hexisting hkey s
    rw [ha]
    exact ⟨_, rfl⟩

theorem insertFrom_answers_node (record : Record) (hnd : Node.Firm L n path stem ⟨h, c⟩)
    (hk : key.length = n)
    (hbelow : ∀ e ∈ (RadixIndex.Node.mk h c).children, ∀ s,
      ∃ a, insertFrom M key record e.2 (path ++ stem ++ [e.1]).length (recount e.2 + s) = .ok a)
    (s : Stats) :
    ∃ a, insertFrom M key record (.node h c) path.length (recount (.node h c) + s) = .ok a := by
  have hlen : h.stem.length = stem.length := hnd.stands.stemLength_eq
  obtain ⟨⟨mismatch, hmatch⟩, b, hb⟩ := Node.reach_answers M hnd hk
  rw [insertFrom, hmatch, ok_bind]
  dsimp only
  split
  · rename_i hlt
    obtain ⟨a, ha⟩ := Node.splitStem_answers M hnd.stands hk record (hlen ▸ hlt)
      (recount (.node h c) + s)
    rw [ha]
    exact ⟨_, rfl⟩
  · rw [hb, ok_bind, hlen]
    cases hfind : NodeHeader.find h (fun i => !(c i).isEmpty) b with
    | none =>
        have hno := hnd.stands.sound.not_mem_of_find hfind
        obtain ⟨nd, hadd, -⟩ := Node.addChild_leaf hnd.stands.sound hno record s
        have hadd : Node.addChild ⟨h, c⟩ b (.leaf record) (recount (.node h c) + s) = _ := hadd
        dsimp only
        rw [hadd]
        exact ⟨_, rfl⟩
    | some i =>
        have hmem := hnd.stands.sound.mem_children_of_find hfind
        obtain ⟨others, hold, -⟩ := recount_below hnd.stands.sound
          (hnd.stands.sound.find_eq_some.mp hfind)
        obtain ⟨a, ha⟩ := hbelow _ hmem (others + s)
        dsimp only at ha ⊢
        rw [hold, ← Key.length_below path stem b, ha]
        exact ⟨_, rfl⟩

theorem insertFrom_answers (record : Record) {t : Tree} (ht : t.Firm L n path)
    (hk : key.length = n) (s : Stats) :
    ∃ a, insertFrom M key record t path.length (t.recount + s) = .ok a := by
  induction t generalizing path s with
  | empty => exact ⟨_, rfl⟩
  | leaf existing =>
      exact insertFrom_answers_leaf M existing record (hk ▸ ht.fits.rooted.length_path_le) _
  | node h c ih =>
      obtain ⟨stem, -, hnd⟩ := firm_node ht
      refine insertFrom_answers_node M record hnd hk ?_ s
      rintro ⟨b, t⟩ he s
      obtain ⟨i, -, rfl⟩ := RadixIndex.Node.mem_children.mp he
      exact ih i (hnd.below _ he) s

/-! ## Erasing -/

theorem eraseFrom_answers_node (hnd : Node.Firm L n path stem ⟨h, c⟩) (hk : key.length = n)
    (hbelow : ∀ e ∈ (RadixIndex.Node.mk h c).children, ∀ s,
      ∃ a, eraseFrom M key e.2 (path ++ stem ++ [e.1]).length (recount e.2 + s) = .ok a)
    (s : Stats) :
    ∃ a, eraseFrom M key (.node h c) path.length (recount (.node h c) + s) = .ok a := by
  have hlen : h.stem.length = stem.length := hnd.stands.stemLength_eq
  obtain ⟨⟨matched, hmatch⟩, b, hb⟩ := Node.reach_answers M hnd hk
  rw [eraseFrom, hmatch, ok_bind]
  dsimp only
  split
  · exact ⟨_, rfl⟩
  rw [hb, ok_bind, hlen]
  cases hfind : NodeHeader.find h (fun i => !(c i).isEmpty) b with
  | none => exact ⟨_, rfl⟩
  | some i =>
      have hmem := hnd.stands.sound.mem_children_of_find hfind
      dsimp only
      split
      · rename_i hhit
        obtain ⟨r, hi⟩ : ∃ r, c i = .leaf r := by
          cases hi : c i with
          | leaf r => exact ⟨r, rfl⟩
          | empty =>
              rw [hi] at hhit
              cases hhit
          | node h' c' =>
              rw [hi] at hhit
              cases hhit
        have hmem : (b, .leaf r) ∈ (RadixIndex.Node.mk h c).children := hi ▸ hmem
        obtain ⟨removed, nd, s', a, hremove, ha⟩ := Node.removeLeaf_answers hnd hmem s
        have hremove : Node.removeChild ⟨h, c⟩ b (recount (.node h c) + s) = _ := hremove
        rw [hremove, ok_bind]
        dsimp only
        rw [ha]
        exact ⟨_, rfl⟩
      · obtain ⟨others, hold, -⟩ := recount_below hnd.stands.sound
          (hnd.stands.sound.find_eq_some.mp hfind)
        obtain ⟨a, ha⟩ := hbelow _ hmem (others + s)
        dsimp only at ha
        rw [hold, ← Key.length_below path stem b, ha]
        exact ⟨_, rfl⟩

end Node

theorem eraseFrom_answers {t : Tree} (ht : t.Firm L n path) (hk : key.length = n) (s : Stats) :
    ∃ a, eraseFrom M key t path.length (t.recount + s) = .ok a := by
  induction t generalizing path s with
  | empty => exact ⟨_, rfl⟩
  | leaf r => exact ⟨_, rfl⟩
  | node h c ih =>
      obtain ⟨stem, -, hnd⟩ := firm_node ht
      refine eraseFrom_answers_node M hnd hk ?_ s
      rintro ⟨b, t⟩ he s
      obtain ⟨i, -, rfl⟩ := RadixIndex.Node.mem_children.mp he
      exact ih i (hnd.below _ he) s

/-! ## Looking up and replacing -/

/-- The key may have any length: a stem that it does not reach the end of is not compared. -/
theorem getCheckedFrom_answers {t : Tree} (ht : t.Fits L n path) :
    ∃ found, getCheckedFrom M key t path.length = .ok found := by
  induction ht with
  | leaf _ => exact ⟨_, rfl⟩
  | @node path stem h c hsound hspells htwo hbelow ih =>
      have hnd : (RadixIndex.Node.mk h c).Stands L n path stem :=
        ⟨hsound, hspells, htwo, hbelow⟩
      have hlen : h.stem.length = stem.length := hnd.stemLength_eq
      rw [getCheckedFrom, hlen]
      split
      · exact ⟨_, rfl⟩
      · rename_i hreach
        obtain ⟨matched, hmatch⟩ := hnd.rooted.stemMatch_answers M (Nat.le_of_not_lt hreach)
        rw [hmatch, ok_bind]
        split
        · exact ⟨_, rfl⟩
        · dsimp only
          cases key[path.length + stem.length]? with
          | none => exact ⟨_, rfl⟩
          | some b =>
              dsimp only
              cases hfind : NodeHeader.find h (fun i => !(c i).isEmpty) b with
              | none => exact ⟨_, rfl⟩
              | some i =>
                  dsimp only
                  rw [← Key.length_below path stem b]
                  exact ih _ (hsound.mem_children_of_find hfind)

theorem updateInPlace_answers (key : Key) (record : Record) {t : Tree} (ht : t.Fits L n path)
    (hn : n ≤ Key.maxOffset) (skipped : Bool) :
    ∃ a, updateInPlace M key record t path.length skipped = .ok a := by
  induction ht generalizing skipped with
  | leaf _ => exact ⟨_, updateInPlace_leaf _ _ _⟩
  | @node path stem h c hsound hspells htwo hbelow ih =>
      have hnd : (RadixIndex.Node.mk h c).Stands L n path stem :=
        ⟨hsound, hspells, htwo, hbelow⟩
      obtain ⟨hstop, hnext⟩ := hnd.rooted.advance hn
      rw [updateInPlace_node, hstop, ok_bind]
      cases hway : (RadixIndex.Node.mk h c).way key path.length with
      | none => exact ⟨_, rfl⟩
      | some i =>
          obtain ⟨b, hmem, hlen⟩ := hnd.rooted.way_below hway
          obtain ⟨a, ha⟩ := ih _ hmem
            (skipped || RadixIndex.Node.cutsStem (RadixIndex.Node.mk h c))
          dsimp only
          rw [hnext, ok_bind, hlen, ha]
          exact ⟨_, rfl⟩

end Tree

end RadixIndex.Dynamic
