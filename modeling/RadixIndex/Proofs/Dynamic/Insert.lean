/-
# Inserting into a dynamic tree

Inserting a record under its key changes nothing when the key is there, and
otherwise adds the record to those of the tree; either way it answers
(`insertFrom_ok`).  The three changes that an insertion can make are two kinds of
fork, where a leaf or a stem is left by the key, and one more child of a node.

The counts are said relative to the tree: an insertion is given the counts of the
tree plus any others, and gives back those of the new tree plus the same others.
-/
import RadixIndex.Proofs.Dynamic.Fork

namespace RadixIndex.Dynamic

variable {L : Loader} {n : Nat} {path stem key : Key}

namespace Node

/-! ## Forks -/

theorem splitLeaf_ok {existing record : Record} (hp : path <+: key)
    (he : path <+: L.load existing n) (hk : key.length = n) (hr : L.load record n = key)
    (hne : L.load existing n ≠ key) (s : Stats) :
    ∃ nd stem a b, splitLeaf existing record (L.load existing n) key path.length
        (Key.commonLength ((L.load existing n).drop path.length) (key.drop path.length)) s =
          .ok (nd, .one (size nd) + s) ∧
      Forked L n path stem (.leaf existing) (.leaf record) nd ∧
        (RadixIndex.Node.children nd).Perm [(b, .leaf record), (a, .leaf existing)] ∧
          path ++ stem ++ [b] <+: key := by
  have hlt : path.length + Key.commonLength ((L.load existing n).drop path.length)
      (key.drop path.length) < n := by
    refine Nat.lt_of_not_le fun hle => hne ?_
    exact Key.eq_of_commonLength he hp (L.length_load existing n) hk hle
  obtain ⟨stem, a, b, hab, hstem, hold, hnew⟩ :=
    Key.exists_fork_below he hp (L.length_load existing n) hk hlt
  obtain ⟨first, nd, hfork⟩ := exists_fork (Stem.of stem) a b (.leaf existing) (.leaf record)
  have hforked := hfork.forked hab (Tree.firm_leaf hold) (Tree.firm_leaf (hr ▸ hnew))
  refine ⟨nd, stem, a, b, ?_, hforked, hfork.perm, hnew⟩
  rw [← hstem]
  have hmake : Stem.make stem.length (key.drop path.length) = .ok (Stem.of stem) := by
    have hprefix := (Key.append_prefix_iff hp).mp (Key.prefix_of_append hnew)
    rw [Stem.make_ok hprefix.length_le, ← List.prefix_iff_eq_take.mp hprefix]
  rw [splitLeaf, hmake, ok_bind, ← List.length_append, Key.byteAt_of_path hold, ok_bind,
    hfork.addFirst, ok_bind, Key.byteAt_of_path hnew, hfork.size_eq, ← Stats.alloc_eq]
  exact hfork.addSecond _

theorem splitStem_ok {nd : Node} (hnd : nd.Firm L n path stem) {record : Record}
    (hp : path <+: key) (hk : key.length = n) (hr : L.load record n = key) {mismatch : Nat}
    (hm : mismatch = Key.commonLength stem (key.drop path.length)) (hlt : mismatch < stem.length)
    (s : Stats) :
    ∃ nd' stem' a b rest, splitStem L nd key path.length mismatch record s =
        .ok (nd', .one (size nd') + s) ∧
      Forked L n path stem' (withStem nd (Stem.of rest)).toTree (.leaf record) nd' ∧
        (RadixIndex.Node.children nd').Perm
          [(b, .leaf record), (a, (withStem nd (Stem.of rest)).toTree)] ∧
            path ++ stem' ++ [b] <+: key ∧ stem = stem' ++ a :: rest := by
  have hroom := hnd.stands.length_lt
  obtain ⟨shared, a, rest, b, yr, hab, hshared, rfl, hy⟩ := Key.exists_fork
    stem (key.drop path.length) (hm ▸ hlt) (by rw [← hm, List.length_drop]; omega)
  rw [← hm] at hshared
  have hnew : path ++ shared ++ [b] <+: key := ⟨yr, by rw [← Key.drop_of_path hp, hy]; simp⟩
  have hbyte : key[path.length + mismatch]? = some b := by
    rw [← hshared, ← List.length_append]
    exact Key.getElem?_of_path hnew
  have hbelow : (withStem nd (Stem.of rest)).Firm L n (path ++ shared ++ [a]) rest :=
    hnd.withStem (by simp)
  obtain ⟨first, nd', hfork, hsplit⟩ :=
    splitStem_eq (hk ▸ carries_of_stands hnd.stands) hlt hbyte record
  have htake : (shared ++ a :: rest).take mismatch = shared := List.take_left' hshared
  have hbranch : (shared ++ a :: rest)[mismatch] = a := by
    simp [← hshared]
  have hdrop : (shared ++ a :: rest).drop (mismatch + 1) = rest := by
    rw [← hshared, List.drop_append]
    simp
  rw [htake, hbranch, hdrop] at hfork
  refine ⟨nd', shared, a, b, rest, ?_, hfork.forked hab hbelow.toTree (Tree.firm_leaf (hr ▸ hnew)),
    hfork.perm, hnew, rfl⟩
  rw [hsplit, hfork.size_eq, Stats.alloc_eq]

/-! ## One more leaf -/

/-- A leaf more in a node is no node more. -/
theorem addChild_leaf {nd : Node} {b : UInt8} (hn : nd.Sound) (hb : ∀ t, (b, t) ∉ nd.children)
    (record : Record) (s : Stats) :
    ∃ nd', addChild nd b (.leaf record) (Tree.recount nd.toTree + s) =
        .ok (nd', Tree.recount nd'.toTree + s) ∧
      Added nd nd' b (.leaf record) ∧
        (∀ lacking, (size nd).fanOut.1 ≤ nd.count + 1 + lacking →
          (size nd').fanOut.1 ≤ nd'.count + lacking) ∧
            size nd' = if isFull nd then (size nd).larger else size nd := by
  obtain ⟨nd', hadd, hadded, hsizes⟩ := addChild_ok (t := .leaf record) hn hb nofun
    ((nd.children.map fun e => Tree.recount e.2).sum + s)
  refine ⟨nd', ?_, hadded, hsizes⟩
  rw [recount_of_perm (.refl _), add_assoc, hadd, recount_of_perm (hadded.perm hn hb),
    List.map_cons, List.sum_cons, Tree.recount_leaf, zero_add, add_assoc]

theorem Firm.added {nd nd' : Node} (hnd : nd.Firm L n path stem) {b : UInt8} {t : Tree}
    (h : Added nd nd' b t) (hb : ∀ t, (b, t) ∉ nd.children) (hsized : Sized nd')
    (ht : t.Firm L n (path ++ stem ++ [b])) : nd'.Firm L n path stem := by
  refine firm_of_children h.sound ?_ ?_ hsized ?_
  · exact h.stem_eq.trans (spells_iff.mp hnd.stands.spells)
  · rw [(h.perm hnd.stands.sound hb).length_eq]
    exact Nat.le_succ_of_le hnd.stands.two_le
  · intro e he
    rcases (h.mem e).mp he with rfl | he
    · exact ht
    · exact hnd.below e he

end Node

namespace Tree

/-- The tree `t'` is `t` with one more record. -/
structure Inserted (L : Loader) (n : Nat) (path : Key) (record : Record) (t t' : Tree) : Prop where
  firm : t'.Firm L n path
  mem : ∀ x, x ∈ t'.records ↔ x = record ∨ x ∈ t.records

/-- What an insertion does to a tree, when it is given the counts of the tree and
others: nothing if the key is there, and otherwise it adds the record. -/
def Inserts (L : Loader) (n : Nat) (key : Key) (record : Record) (path : Key) (t : Tree)
    (s : Stats) : Prop :=
  (∃ r ∈ t.records, L.load r n = key) ∧
      insertFrom L key record t path.length (t.recount + s) = .ok none ∨
    (∀ r ∈ t.records, L.load r n ≠ key) ∧ ∃ t', Inserted L n path record t t' ∧
      insertFrom L key record t path.length (t.recount + s) = .ok (some (t', t'.recount + s))

variable {record : Record}

/-- A leaf with another key is split where the keys part. -/
theorem insertFrom_leaf {existing : Record} (ht : path <+: L.load existing n)
    (hk : key.length = n) (hp : path <+: key) (hne : L.load existing n ≠ key) (s : Stats) :
    insertFrom L key record (.leaf existing) path.length s = (do
      let (nd, s) ← Node.splitLeaf existing record (L.load existing n) key path.length
        (Key.commonLength ((L.load existing n).drop path.length) (key.drop path.length)) s
      return some (nd.toTree, s)) := by
  have hlt : ¬ n ≤ path.length + Key.commonLength ((L.load existing n).drop path.length)
      (key.drop path.length) := fun hle =>
    hne (Key.eq_of_commonLength ht hp (L.length_load existing n) hk hle)
  rw [insertFrom, hk, Key.suffix_of_le hp.length_le, ok_bind]
  exact if_neg hlt

theorem inserts_leaf (hr : L.load record n = key) {existing : Record}
    (ht : path <+: L.load existing n) (hk : key.length = n) (hp : path <+: key) (s : Stats) :
    Inserts L n key record path (.leaf existing) s := by
  by_cases hload : L.load existing n = key
  · -- All bytes are common, so the leaf holds the key.
    refine Or.inl ⟨⟨existing, List.mem_singleton_self _, hload⟩, ?_⟩
    rw [insertFrom, hk, Key.suffix_of_le hp.length_le, ok_bind, hload]
    refine if_pos ?_
    rw [Key.commonLength_eq_length.mpr (List.prefix_refl _), List.length_drop]
    omega
  · obtain ⟨nd, stem, a, b, hsplit, hforked, -⟩ := Node.splitLeaf_ok hp ht hk hr hload s
    refine Or.inr ⟨?_, nd.toTree, ⟨hforked.firm.toTree, ?_⟩, ?_⟩
    · intro r hmem
      exact List.mem_singleton.mp hmem ▸ hload
    · intro x
      rw [hforked.mem]
      simp only [RadixIndex.Tree.records_leaf, List.mem_singleton]
    · rw [insertFrom_leaf ht hk hp hload, recount_leaf, zero_add, hsplit, hforked.recount_eq]
      simp

/-- A node whose stem the key leaves is put below a new one. -/
theorem insertFrom_fork {h : Header} {c : Fin (NodeHeader.width h) → Tree}
    (hnd : Node.Firm L n path stem ⟨h, c⟩) (hk : key.length = n)
    (hlt : Key.commonLength stem (key.drop path.length) < stem.length) (s : Stats) :
    insertFrom L key record (.node h c) path.length s = (do
      let (nd, s) ← Node.splitStem L ⟨h, c⟩ key path.length
        (Key.commonLength stem (key.drop path.length)) record s
      return some (nd.toTree, s)) := by
  have hlen : h.stem.length = stem.length := hnd.stands.stemLength_eq
  rw [insertFrom, hnd.stands.rooted.stemMatch_eq hk, ok_bind, hlen]
  exact if_pos hlt

theorem inserts_fork (hr : L.load record n = key) {h : Header}
    {c : Fin (NodeHeader.width h) → Tree} (hnd : Node.Firm L n path stem ⟨h, c⟩)
    (hk : key.length = n) (hp : path <+: key)
    (hlt : Key.commonLength stem (key.drop path.length) < stem.length) (s : Stats) :
    Inserts L n key record path (.node h c) s := by
  obtain ⟨nd, stem', a, b, rest, hsplit, hforked, -⟩ :=
    Node.splitStem_ok hnd hp hk hr rfl hlt (recount (.node h c) + s)
  refine Or.inr ⟨?_, nd.toTree, ⟨hforked.firm.toTree, ?_⟩, ?_⟩
  · intro r hmem he
    rw [(Key.commonLength_stem hp).mpr (he ▸ hnd.stands.stem_of_mem hmem)] at hlt
    exact Nat.lt_irrefl _ hlt
  · intro x
    rw [hforked.mem]
    simp only [RadixIndex.Tree.records_leaf, List.mem_singleton]
    exact Iff.rfl
  · rw [insertFrom_fork hnd hk hlt, hsplit, ok_bind, hforked.recount_eq,
      Node.recount_withStem, recount_leaf, add_zero, add_assoc]
    rfl

section Below

variable {h : Header} {c : Fin (NodeHeader.width h) → Tree} {b : UInt8}

/-- Where the key follows the stem, the byte after it decides. -/
theorem insertFrom_node (hnd : Node.Firm L n path stem ⟨h, c⟩) (hk : key.length = n)
    (hb : path ++ stem ++ [b] <+: key) (s : Stats) :
    insertFrom L key record (.node h c) path.length s =
      match RadixIndex.Node.find ⟨h, c⟩ b with
      | some i => do
          return (← insertFrom L key record (c i) (path ++ stem ++ [b]).length s).map
            fun (t, s) => (((RadixIndex.Node.mk h c).setChild i t).toTree, s)
      | none => do
          let (nd, s) ← Node.addChild ⟨h, c⟩ b (.leaf record) s
          return some (nd.toTree, s) := by
  have hlen : h.stem.length = stem.length := hnd.stands.stemLength_eq
  have hstem := Key.prefix_of_append hb
  have hmatch := (Key.commonLength_stem (Key.prefix_of_append hstem)).mpr hstem
  have hbyte := Key.byteAt_of_path hb
  rw [List.length_append] at hbyte
  rw [insertFrom, hnd.stands.rooted.stemMatch_eq hk, ok_bind, hmatch, hlen,
    if_neg (Nat.lt_irrefl _)]
  dsimp only
  rw [hbyte, ok_bind, Key.length_below, RadixIndex.Node.find]
  cases NodeHeader.find h (fun i => !(c i).isEmpty) b <;> rfl

theorem inserts_child (hr : L.load record n = key) (hnd : Node.Firm L n path stem ⟨h, c⟩)
    (hk : key.length = n) (hb : path ++ stem ++ [b] <+: key)
    (hfind : RadixIndex.Node.find ⟨h, c⟩ b = none) (s : Stats) :
    Inserts L n key record path (.node h c) s := by
  have hno := hnd.stands.sound.not_mem_of_find hfind
  obtain ⟨nd, hadd, hadded, hlack, -⟩ := Node.addChild_leaf hnd.stands.sound hno record s
  have hfirm := hnd.added hadded hno (hlack 0 (Nat.le_succ_of_le hnd.sized))
    (firm_leaf (hr ▸ hb))
  refine Or.inr ⟨?_, nd.toTree, ⟨hfirm.toTree, ?_⟩, ?_⟩
  · intro r hmem he
    exact hnd.stands.not_mem_below hno (he ▸ hb) hmem
  · intro x
    rw [RadixIndex.Node.toTree, RadixIndex.Tree.mem_records_node]
    show (∃ e ∈ RadixIndex.Node.children nd, _) ↔ _
    simp only [hadded.mem, or_and_right, exists_or, exists_eq_left,
      RadixIndex.Tree.records_leaf, List.mem_singleton, RadixIndex.Tree.mem_records_node]
  · have hadd : Node.addChild ⟨h, c⟩ b (.leaf record) (recount (.node h c) + s) = _ := hadd
    rw [insertFrom_node hnd hk hb, hfind]
    dsimp only
    rw [hadd]
    rfl

theorem inserts_below (hnd : Node.Firm L n path stem ⟨h, c⟩)
    (hk : key.length = n) (hb : path ++ stem ++ [b] <+: key) {i : Fin (NodeHeader.width h)}
    (hfind : RadixIndex.Node.find ⟨h, c⟩ b = some i)
    (hbelow : ∀ s, Inserts L n key record (path ++ stem ++ [b]) (c i) s) (s : Stats) :
    Inserts L n key record path (.node h c) s := by
  have hmem := hnd.stands.sound.mem_children_of_find hfind
  have hslot := hnd.stands.sound.find_eq_some.mp hfind
  have hin : ∀ r, L.load r n = key → (r ∈ (RadixIndex.Tree.node h c).records ↔ r ∈ (c i).records) :=
    fun r hr => hnd.stands.mem_below hmem (hr ▸ hb)
  obtain ⟨others, hold, hnew⟩ := recount_below hnd.stands.sound hslot
  rw [Inserts, insertFrom_node hnd hk hb, hfind]
  dsimp only
  rw [hold]
  rcases hbelow (others + s) with ⟨⟨r, hr, hload⟩, heq⟩ | ⟨hno, t, hinserted, heq⟩
  · refine Or.inl ⟨⟨r, (hin r hload).mpr hr, hload⟩, ?_⟩
    rw [heq]
    rfl
  · have ht := hinserted.firm
    have hkey : path ++ stem ++ [b] <+: L.load record n :=
      ht.fits.path_of_mem ((hinserted.mem record).mpr (Or.inl rfl))
    refine Or.inr ⟨fun r hr hload => hno r ((hin r hload).mp hr) hload, _,
      ⟨(hnd.setChild hslot ht).toTree, ?_⟩, ?_⟩
    · refine hnd.stands.mem_setChild_of hslot ht.fits (g := fun x p => x = record ∨ p)
        hinserted.mem ?_
      intro x p hx
      exact or_iff_right fun he => hx (he ▸ hkey)
    · rw [heq, hnew t ht.fits.ne_empty]
      rfl

end Below

/-- Inserting a record under its key answers, and adds the record unless the key is
there already. -/
theorem insertFrom_ok (hr : L.load record n = key) {t : Tree} (ht : t.Firm L n path)
    (hk : key.length = n) (hp : path <+: key) (s : Stats) :
    Inserts L n key record path t s := by
  induction t generalizing path s with
  | empty => exact absurd rfl ht.fits.ne_empty
  | leaf existing =>
      exact inserts_leaf hr (ht.fits.path_of_mem (List.mem_singleton_self existing)) hk hp s
  | node h c ih =>
      obtain ⟨stem, -, hnd⟩ := firm_node ht
      by_cases hlt : Key.commonLength stem (key.drop path.length) < stem.length
      · exact inserts_fork hr hnd hk hp hlt s
      · have hstem : path ++ stem <+: key := by
          refine (Key.commonLength_stem hp).mp ?_
          exact Nat.le_antisymm (Key.commonLength_le_left _ _) (Nat.le_of_not_lt hlt)
        have hroom := hnd.stands.length_lt
        obtain ⟨b, hb⟩ := Key.exists_byte hstem (by rw [List.length_append]; omega)
        cases hfind : RadixIndex.Node.find ⟨h, c⟩ b with
        | none => exact inserts_child hr hnd hk hb hfind s
        | some i =>
            have hmem := hnd.stands.sound.mem_children_of_find hfind
            exact inserts_below hnd hk hb hfind (ih i (hnd.below _ hmem) hb) s

end Tree

end RadixIndex.Dynamic
