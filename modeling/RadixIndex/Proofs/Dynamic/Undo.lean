/-
# Erasing undoes inserting

A record that is stored under a new key and taken out again leaves the tree as it was: the
same stems, bytes and leaves in the same places (`Tree.trie`), as many records and as many
nodes (`erase_undoes_insert`).

What comes of the leaf on the way decides what is left of it.  If it got a node of its own,
beside a leaf or above a node whose stem its key leaves, then that node is left with one child
and gives way to it, and the child takes over the stem that was cut off: the bytes that were
taken apart are put together again, and the tree is the same down to the layouts.  If the leaf
was added to a node, the node may have grown.  It does not shrink again when the leaf goes,
since the point of shrinking lies below that of growing, and this is the one difference that
can remain.  `Detour` says which of the two it was and where.
-/
import RadixIndex.Proofs.Dynamic.Refines

namespace RadixIndex.Dynamic

/-! ## Tries -/

/-- What a tree spells out: stems, bytes and leaves, without the layout of its nodes. -/
inductive Trie where
  | empty
  | leaf (record : Record)
  | node (stem : Stem) (branches : List (UInt8 × Trie))

namespace Tree

/-- The trie of a tree. -/
def trie : Tree → Trie
  | .empty => .empty
  | .leaf r => .leaf r
  | .node h c =>
      .node h.stem ((NodeHeader.slots h fun i => !(c i).isEmpty).map fun s => (s.1, trie (c s.2)))

theorem trie_node (h : Header) (c : Fin (NodeHeader.width h) → Tree) :
    trie (.node h c) =
      .node h.stem ((RadixIndex.Node.mk h c).children.map fun e => (e.1, trie e.2)) := by
  rw [trie, RadixIndex.Node.children, List.map_map]
  rfl

theorem isEmpty_eq_of_trie {t u : Tree} (h : t.trie = u.trie) : t.isEmpty = u.isEmpty := by
  cases t <;> cases u <;> first | rfl | exact absurd h nofun

/-- A child with the same trie in the place of a child leaves the trie as it is. -/
theorem trie_setChild {nd : Node} {i : Fin (NodeHeader.width nd.header)} {t : Tree}
    (h : t.trie = trie (nd.child i)) : trie (nd.setChild i t).toTree = trie nd.toTree := by
  have hcell : ∀ j, trie (setCell nd.child i t j) = trie (nd.child j) := by
    intro j
    by_cases hj : j = i
    · rw [hj, setCell_same, h]
    · rw [setCell_other _ _ _ hj]
  have hoccupied : (fun j => !(setCell nd.child i t j).isEmpty) = fun j => !(nd.child j).isEmpty :=
    funext fun j => by rw [isEmpty_eq_of_trie (hcell j)]
  rw [RadixIndex.Node.setChild_eq, RadixIndex.Node.toTree, RadixIndex.Node.toTree, trie, trie,
    hoccupied]
  simp only [hcell]

/-- The trie tells how many nodes there are. -/
theorem length_nodes_eq_of_trie {t u : Tree} (h : t.trie = u.trie) :
    t.nodes.length = u.nodes.length := by
  induction t generalizing u with
  | empty =>
      cases u with
      | empty => rfl
      | _ => exact absurd h nofun
  | leaf r =>
      cases u with
      | leaf r' => rfl
      | _ => exact absurd h nofun
  | node hd c ih =>
      cases u with
      | empty => exact absurd h nofun
      | leaf r' => exact absurd h nofun
      | node hd' c' =>
          rw [trie, trie] at h
          obtain ⟨-, hbranches⟩ := Trie.node.inj h
          have halike : List.Forall₂
              (fun s s' => (c s.2).nodes.length = (c' s'.2).nodes.length)
              (NodeHeader.slots hd fun i => !(c i).isEmpty)
              (NodeHeader.slots hd' fun i => !(c' i).isEmpty) := by
            have hpairs := List.forall₂_map_left_iff.mp
              (List.forall₂_map_right_iff.mp (List.forall₂_eq_eq_eq ▸ hbranches))
            exact hpairs.imp fun s s' hs => ih s.2 (Prod.mk.inj hs).2
          rw [RadixIndex.Tree.nodes, RadixIndex.Tree.nodes, List.length_cons, List.length_cons,
            List.length_flatMap, List.length_flatMap, map_eq_of_forall₂ halike fun _ _ hs => hs]

end Tree

/-! ## Counting nodes -/

theorem Stats.nodes_add (s t : Stats) : (s + t).nodes = s.nodes + t.nodes := by
  show (s.four + t.four) + (s.sixteen + t.sixteen) + (s.fortyEight + t.fortyEight) +
    (s.full + t.full) = _
  rw [nodes, nodes]
  omega

theorem Tree.nodes_recount (t : Tree) : t.recount.nodes = t.nodes.length := by
  have hone : ∀ size, (Stats.one size).nodes = 1 := by
    intro size
    cases size <;> rfl
  rw [recount_eq]
  induction t.nodes with
  | nil => rfl
  | cons n ns ih =>
      rw [List.map_cons, List.sum_cons, Stats.nodes_add, hone, ih, List.length_cons, Nat.add_comm]

/-! ## Detours -/

/-- The tree `before` becomes `during` when a leaf with the record is put into it, and `after`
when that leaf is taken out again. -/
inductive Detour (record : Record) : Tree → Tree → Tree → Prop
  /-- The leaf is the whole tree. -/
  | alone : Detour record .empty (.leaf record) .empty
  /-- The leaf gets a node of its own, beside the tree that was there, and nothing is left of
  the node afterwards. -/
  | forked {nd : Node} {a b : UInt8} {u : Tree} :
      (RadixIndex.Node.children nd).Perm [(b, .leaf record), (a, u)] →
        Detour record (u.joined nd.header.stem a) nd.toTree (u.joined nd.header.stem a)
  /-- The leaf is added to a node, which is the next larger one afterwards if it was full. -/
  | added {nd nd1 nd2 : Node} {b : UInt8} : Node.Added nd nd1 b (.leaf record) →
      nd2.header.stem = nd.header.stem →
        RadixIndex.Node.children nd2 = RadixIndex.Node.children nd →
          Node.size nd2 = (if nd.isFull then nd.size.larger else nd.size) →
            Detour record nd.toTree nd1.toTree nd2.toTree
  /-- All this is below a child of a node that stays what it is. -/
  | inside {nd : Node} {b : UInt8} {i : Fin (NodeHeader.width nd.header)} {t1 t2 : Tree} :
      nd.find b = some i → Detour record (nd.child i) t1 t2 →
        Detour record nd.toTree (nd.setChild i t1).toTree (nd.setChild i t2).toTree

/-- A detour leads back to the same trie. -/
theorem Detour.trie_eq {record : Record} {t t1 t2 : Tree} (h : Detour record t t1 t2) :
    Tree.trie t2 = Tree.trie t := by
  induction h with
  | alone => rfl
  | forked _ => rfl
  | added _ hstem hchildren _ =>
      rw [RadixIndex.Node.toTree, RadixIndex.Node.toTree, Tree.trie_node, Tree.trie_node, hstem]
      exact congrArg (fun l => Trie.node _ (l.map fun e => (e.1, Tree.trie e.2))) hchildren
  | inside _ _ ih => exact Tree.trie_setChild ih

variable {L : Loader} {n : Nat} {path stem key : Key} {record : Record}

namespace Node

/-- Where a node has the leaf of the key beside one other tree, erasing the key leaves that
tree, with the stem of the node. -/
theorem eraseFrom_forked {nd : Node} (hnd : nd.Firm L n path stem) (hk : key.length = n)
    {a b : UInt8} {u : Tree} (hb : path ++ stem ++ [b] <+: key)
    (hr : L.load record n = key)
    (hperm : (RadixIndex.Node.children nd).Perm [(b, .leaf record), (a, u)]) (s : Stats) :
    Tree.eraseFrom L key nd.toTree path.length (Tree.recount nd.toTree + s) =
      .ok (some (u.joined nd.header.stem a,
        Tree.recount (u.joined nd.header.stem a) + s)) := by
  have hmem : (b, .leaf record) ∈ RadixIndex.Node.children nd :=
    hperm.mem_iff.mpr List.mem_cons_self
  obtain ⟨nd', herase, hremoved, hsized, -⟩ := Tree.eraseFrom_hit hnd hk hb hmem hr s
  have hleft := hremoved.children_single hnd.stands.sound hperm
  have hone : nd'.count = 1 := hremoved.sound.count_eq_length.trans (congrArg List.length hleft)
  have hfour : size nd' = .four := by
    rcases hsized with hsized | ⟨hfour, -⟩
    · have htwo := Nat.le_trans (Size.two_le_fanOut _) hsized
      omega
    · exact hfour
  rw [herase, settle_last hremoved.sound hfour hleft, hremoved.stem_eq]
  rfl

/-- A child that is added under a new byte and removed again leaves the children as they were. -/
theorem Added.children_removed {nd nd1 nd2 : Node} {b : UInt8} {t : Tree} (hn : nd.Sound)
    (hadded : Added nd nd1 b t) (hno : ∀ t, (b, t) ∉ RadixIndex.Node.children nd)
    (hremoved : Removed nd1 nd2 b) :
    RadixIndex.Node.children nd2 = RadixIndex.Node.children nd := by
  refine hremoved.sound.children_eq_of_mem hn ?_
  intro e
  rw [hremoved.mem, hadded.mem]
  constructor
  · rintro ⟨rfl | he, hne⟩
    · exact absurd rfl hne
    · exact he
  · intro he
    exact ⟨Or.inr he, fun heb => hno e.2 (heb ▸ he)⟩

/-- A node that has grown does not have to shrink for having as few children as before: the
point of shrinking lies below that of growing. -/
theorem Sized.fanOut_grown {nd : Node} (hsized : Sized nd) (hn : nd.Sound) {b : UInt8}
    (hno : ∀ t, (b, t) ∉ RadixIndex.Node.children nd) :
    (if isFull nd then (size nd).larger else size nd).fanOut.1 ≤ nd.count := by
  split
  · rename_i hfull
    have hcap : (size nd).capacity ≤ nd.count := of_decide_eq_true hfull
    refine Nat.le_trans (Size.fanOut_larger fun hsize => ?_) hcap
    rw [hsize] at hcap
    exact Nat.not_lt.mpr hcap (count_lt_of_absent hn hno)
  · exact hsized

/-- A node that has taken a leaf and loses it again has the children it had, and is the next
larger one if it was full. -/
theorem eraseFrom_added {nd nd1 : Node} (hnd : nd.Firm L n path stem)
    (hnd1 : nd1.Firm L n path stem) (hk : key.length = n) {b : UInt8}
    (hb : path ++ stem ++ [b] <+: key) (hr : L.load record n = key)
    (hadded : Added nd nd1 b (.leaf record)) (hno : ∀ t, (b, t) ∉ RadixIndex.Node.children nd)
    (hsize : size nd1 = if isFull nd then (size nd).larger else size nd) (s : Stats) :
    ∃ nd2 : Node, Tree.eraseFrom L key nd1.toTree path.length (Tree.recount nd1.toTree + s) =
        .ok (some (nd2.toTree, Tree.recount nd2.toTree + s)) ∧
      nd2.header.stem = nd.header.stem ∧
        RadixIndex.Node.children nd2 = RadixIndex.Node.children nd ∧ size nd2 = size nd1 := by
  have hmem : (b, .leaf record) ∈ RadixIndex.Node.children nd1 :=
    (hadded.mem _).mpr (Or.inl rfl)
  obtain ⟨nd2, herase, hremoved, -, hkeeps⟩ := Tree.eraseFrom_hit hnd1 hk hb hmem hr s
  have hchildren := hadded.children_removed hnd.stands.sound hno hremoved
  have hcount : nd2.count = nd.count := by
    rw [hremoved.sound.count_eq_length, hnd.stands.sound.count_eq_length, hchildren]
  have hmany : 2 ≤ nd2.count := by
    rw [hcount, hnd.stands.sound.count_eq_length]
    exact hnd.stands.two_le
  have henough : (size nd1).fanOut.1 ≤ nd2.count := by
    rw [hsize, hcount]
    exact hnd.sized.fanOut_grown hnd.stands.sound hno
  refine ⟨nd2, ?_, hremoved.stem_eq.trans hadded.stem_eq, hchildren, hkeeps henough⟩
  rw [herase, settle, if_neg fun hlast => by omega]
  rfl

end Node

namespace Tree

/-- Inserting the record under its key makes a tree `t1` of `t`, and erasing the key makes of
that one a tree `t2` by a detour.  The tree `t1` is no leaf, so erasing goes on below the node
above it. -/
def Undoes (L : Loader) (n : Nat) (key : Key) (record : Record) (path : Key) (t : Tree)
    (s : Stats) : Prop :=
  ∃ t1 t2, insertFrom L key record t path.length (t.recount + s) =
      .ok (some (t1, t1.recount + s)) ∧
    eraseFrom L key t1 path.length (t1.recount + s) = .ok (some (t2, t2.recount + s)) ∧
      t1.Firm L n path ∧ t1.isLeaf = false ∧ t2 ≠ .empty ∧ Detour record t t1 t2

/-- An insertion under a new key answers with a firm tree. -/
theorem insertFrom_of_absent (hr : L.load record n = key) {t : Tree} (ht : t.Firm L n path)
    (hk : key.length = n) (hp : path <+: key) (hno : ∀ x ∈ t.records, L.load x n ≠ key)
    (s : Stats) : ∃ t1, t1.Firm L n path ∧
      insertFrom L key record t path.length (t.recount + s) = .ok (some (t1, t1.recount + s)) := by
  rcases insertFrom_ok hr ht hk hp s with ⟨⟨x, hx, hload⟩, -⟩ | ⟨-, t1, hinserted, heq⟩
  · exact absurd hload (hno x hx)
  · exact ⟨t1, hinserted.firm, heq⟩

theorem undoes_leaf (hr : L.load record n = key) {existing : Record}
    (ht : path <+: L.load existing n) (hk : key.length = n) (hp : path <+: key)
    (hno : L.load existing n ≠ key) (s : Stats) :
    Undoes L n key record path (.leaf existing) s := by
  obtain ⟨t1, -, hinsert⟩ := insertFrom_of_absent hr (firm_leaf ht) hk hp
    (fun x hx => List.mem_singleton.mp hx ▸ hno) s
  obtain ⟨nd, stem, a, b, hsplit, hforked, hperm, hb⟩ := Node.splitLeaf_ok hp ht hk hr hno
    (recount (.leaf existing) + s)
  have heq := hinsert
  rw [insertFrom_leaf ht hk hp hno, hsplit] at heq
  obtain rfl : nd.toTree = t1 := congrArg Prod.fst (Option.some.inj (Except.ok.inj heq))
  exact ⟨_, _, hinsert, Node.eraseFrom_forked hforked.firm hk hb hr hperm s,
    hforked.firm.toTree, rfl, nofun, .forked hperm⟩

section Node

variable {h : Header} {c : Fin (NodeHeader.width h) → Tree} {b : UInt8}

theorem undoes_fork (hr : L.load record n = key) (hnd : Node.Firm L n path stem ⟨h, c⟩)
    (hk : key.length = n) (hp : path <+: key)
    (hlt : Key.commonLength stem (key.drop path.length) < stem.length)
    (hno : ∀ x ∈ (RadixIndex.Tree.node h c).records, L.load x n ≠ key) (s : Stats) :
    Undoes L n key record path (.node h c) s := by
  obtain ⟨t1, -, hinsert⟩ := insertFrom_of_absent hr hnd.toTree hk hp hno s
  obtain ⟨nd, stem', a, b, rest, hsplit, hforked, hperm, hb, hstem⟩ :=
    Node.splitStem_ok hnd hp hk hr rfl hlt (recount (.node h c) + s)
  have heq := hinsert
  rw [RadixIndex.Node.toTree, insertFrom_fork hnd hk hlt, hsplit] at heq
  obtain rfl : nd.toTree = t1 := congrArg Prod.fst (Option.some.inj (Except.ok.inj heq))
  -- The stem that was cut in two is joined again.
  have hjoined : joined nd.header.stem a
      (Node.withStem (RadixIndex.Node.mk h c) (Stem.of rest)).toTree = .node h c := by
    rw [Node.spells_iff.mp hforked.firm.stands.spells]
    exact joined_withStem (hstem ▸ Node.spells_iff.mp hnd.stands.spells)
  have herase := Node.eraseFrom_forked hforked.firm hk hb hr hperm s
  have hdetour := Detour.forked hperm
  rw [hjoined] at herase hdetour
  exact ⟨_, _, hinsert, herase, hforked.firm.toTree, rfl, hnd.toTree.fits.ne_empty, hdetour⟩

theorem undoes_child (hr : L.load record n = key) (hnd : Node.Firm L n path stem ⟨h, c⟩)
    (hk : key.length = n) (hb : path ++ stem ++ [b] <+: key)
    (hfind : RadixIndex.Node.find ⟨h, c⟩ b = none) (s : Stats) :
    Undoes L n key record path (.node h c) s := by
  have hno := hnd.stands.sound.not_mem_of_find hfind
  obtain ⟨nd1, hadd, hadded, hlack, hsize⟩ := Node.addChild_leaf hnd.stands.sound hno record s
  have hnd1 := hnd.added hadded hno (hlack 0 (Nat.le_succ_of_le hnd.sized))
    (firm_leaf (hr ▸ hb))
  obtain ⟨nd2, herase, hstem, hchildren, hsize2⟩ :=
    Node.eraseFrom_added hnd hnd1 hk hb hr hadded hno hsize s
  refine ⟨_, _, ?_, herase, hnd1.toTree, rfl, nofun,
    .added hadded hstem hchildren (hsize2.trans hsize)⟩
  have hadd : Node.addChild ⟨h, c⟩ b (.leaf record) (recount (.node h c) + s) = _ := hadd
  rw [insertFrom_node hnd hk hb, hfind]
  dsimp only
  rw [hadd]
  rfl

theorem undoes_below (hnd : Node.Firm L n path stem ⟨h, c⟩) (hk : key.length = n)
    (hb : path ++ stem ++ [b] <+: key) {i : Fin (NodeHeader.width h)}
    (hfind : RadixIndex.Node.find ⟨h, c⟩ b = some i)
    (hbelow : ∀ s, Undoes L n key record (path ++ stem ++ [b]) (c i) s) (s : Stats) :
    Undoes L n key record path (.node h c) s := by
  have hslot := hnd.stands.sound.find_eq_some.mp hfind
  obtain ⟨others, hold, hnew⟩ := recount_below hnd.stands.sound hslot
  obtain ⟨t1, t2, hinsert, herase, ht1, hleaf, ht2, hdetour⟩ := hbelow (others + s)
  -- The byte leads to the same slot when the tree in it has been replaced.
  have hset : (RadixIndex.Node.mk h c).setChild i t1 = ⟨h, setCell c i t1⟩ :=
    RadixIndex.Node.setChild_eq _ _ _
  have hnd1 := hnd.setChild hslot ht1
  rw [hset] at hnd1
  have hfind1 : RadixIndex.Node.find ⟨h, setCell c i t1⟩ b = some i :=
    RadixIndex.Node.find_setChild hnd.stands.sound hslot ht1.fits.ne_empty
  have hmiss : ∀ r, setCell c i t1 i = .leaf r → L.load r n ≠ key := by
    intro r hr
    rw [setCell_same] at hr
    exact absurd (hr ▸ hleaf) nofun
  have hreset : (RadixIndex.Node.mk h (setCell c i t1)).setChild i t2 =
      (RadixIndex.Node.mk h c).setChild i t2 := by
    rw [RadixIndex.Node.setChild_eq, RadixIndex.Node.setChild_eq, setCell_setCell]
  refine ⟨((RadixIndex.Node.mk h c).setChild i t1).toTree,
    ((RadixIndex.Node.mk h c).setChild i t2).toTree, ?_, ?_, (hnd.setChild hslot ht1).toTree,
    rfl, nofun, .inside hfind hdetour⟩
  · rw [insertFrom_node hnd hk hb, hfind]
    dsimp only
    rw [hold, hinsert, hnew t1 ht1.fits.ne_empty]
    rfl
  · rw [hnew t1 ht1.fits.ne_empty, hnew t2 ht2, hset, RadixIndex.Node.toTree,
      eraseFrom_miss hnd1 hk hb hfind1 hmiss, setCell_same, herase, ← hreset]
    rfl

end Node

/-- Erasing a key after inserting it leads back, from the node that it was inserted at up to
the root. -/
theorem undoes (hr : L.load record n = key) {t : Tree} (ht : t.Firm L n path)
    (hk : key.length = n) (hp : path <+: key) (hno : ∀ x ∈ t.records, L.load x n ≠ key)
    (s : Stats) : Undoes L n key record path t s := by
  induction t generalizing path s with
  | empty => exact absurd rfl ht.fits.ne_empty
  | leaf existing =>
      exact undoes_leaf hr (ht.fits.path_of_mem (List.mem_singleton_self existing)) hk hp
        (hno existing (List.mem_singleton_self existing)) s
  | node h c ih =>
      obtain ⟨stem, -, hnd⟩ := firm_node ht
      by_cases hstem : path ++ stem <+: key
      · have hroom := hnd.stands.length_lt
        obtain ⟨b, hb⟩ := Key.exists_byte hstem (by rw [List.length_append]; omega)
        cases hfind : RadixIndex.Node.find ⟨h, c⟩ b with
        | none => exact undoes_child hr hnd hk hb hfind s
        | some i =>
            have hmem := hnd.stands.sound.mem_children_of_find hfind
            refine undoes_below hnd hk hb hfind (ih i (hnd.below _ hmem) hb ?_) s
            intro x hx
            exact hno x ((RadixIndex.Tree.mem_records_node h c).mpr ⟨_, hmem, hx⟩)
      · refine undoes_fork hr hnd hk hp ?_ hno s
        refine Nat.lt_of_le_of_ne (Key.commonLength_le_left _ _) ?_
        exact fun he => hstem ((Key.commonLength_stem hp).mp he)

end Tree

end RadixIndex.Dynamic

/-! ## Whole trees -/

open RadixIndex.Dynamic

namespace RadixIndex.DynamicTree

variable {L : Loader} {n : Nat} {t : DynamicTree} {m : Contents} {key : Key} {r : Record}

theorem Refines.not_mem_of_get (h : t.Refines L n m) (hk : key.length = n)
    (hget : t.get L key = none) : ∀ x ∈ t.root.records, L.load x n ≠ key :=
  h.holds.not_mem_iff.mp (Finmap.lookup_eq_none.mp (h.get_eq hk ▸ hget))

/-- From the root the way there and back is open, also where there is no tree yet. -/
theorem Refines.undoes (h : t.Refines L n m) (hk : key.length = n) (hr : L.load r n = key)
    (hno : ∀ x ∈ t.root.records, L.load x n ≠ key) :
    ∃ t1 t2, Tree.insertFrom L key r t.root 0 t.root.recount =
        .ok (some (t1, Tree.recount t1)) ∧
      Tree.eraseFrom L key t1 0 (Tree.recount t1) = .ok (some (t2, Tree.recount t2)) ∧
        Detour r t.root t1 t2 := by
  rcases h.root with hroot | hroot
  · rw [hroot]
    refine ⟨.leaf r, .empty, rfl, ?_, .alone⟩
    have hmatch : L.matchesFrom r key 0 = true :=
      (Loader.matchesFrom_iff hk List.nil_prefix List.nil_prefix).mpr hr
    rw [Tree.eraseFrom, if_pos hmatch]
    rfl
  · obtain ⟨t1, t2, hinsert, herase, -, -, -, hdetour⟩ :=
      Tree.undoes hr hroot hk List.nil_prefix hno 0
    simp only [add_zero, List.length_nil] at hinsert herase
    exact ⟨t1, t2, hinsert, herase, hdetour⟩

/-- Inserting the record under its key makes `during` of `t`, erasing the key makes `after` of
that, and this is `t` again, but for the layout of the node that took the leaf. -/
structure LeadsBack (L : Loader) (key : Key) (r : Record) (t during after : DynamicTree) :
    Prop where
  insert_eq : t.insert L key r = .ok (true, during)
  erase_eq : during.erase L key = .ok (true, after)
  keyLength_eq : after.keyLength = t.keyLength
  size_eq : after.size = t.size
  trie_eq : Tree.trie after.root = Tree.trie t.root
  nodes_eq : after.stats.nodes = t.stats.nodes
  detour : Detour r t.root during.root after.root

/-- Inserting a record under a key that is not in the tree and erasing the key both succeed,
and they lead back to as many records, the same trie and as many nodes.  The tree is another
one afterwards only if the leaf was added to a full node, which is then the next larger one. -/
theorem erase_undoes_insert (h : t.Reachable L n) (hk : key.length = n)
    (hr : L.load r n = key) (habsent : t.get L key = none) :
    ∃ during after, LeadsBack L key r t during after := by
  obtain ⟨m, h⟩ := h.refines
  obtain ⟨t1, t2, hinsert, herase, hdetour⟩ := h.undoes hk hr (h.not_mem_of_get hk habsent)
  have hlen : ¬ key.length ≠ t.keyLength := fun hne => hne (hk.trans h.keyLength_eq.symm)
  have htrie := hdetour.trie_eq
  refine ⟨{ t with root := t1, stats := t1.recount, size := t.size + 1 },
    { t with root := t2, stats := t2.recount }, ?_, ?_, rfl, rfl, htrie, ?_, hdetour⟩
  · rw [DynamicTree.insert, if_neg hlen, h.stats_eq, hinsert]
    rfl
  · rw [DynamicTree.erase, if_neg hlen, herase]
    rfl
  · rw [h.stats_eq, Tree.nodes_recount, Tree.nodes_recount, Tree.length_nodes_eq_of_trie htrie]

/-- A full node with a stem longer than what it keeps: one key is added to it and makes it the
next larger node, another leaves its stem and puts a node above it. -/
theorem erase_undoes_insert_of_full_node :
    let L := Loader.modulo 65536
    let writes : List Write := [.insert (L.load 1 20) 1, .insert (L.load 2 20) 2,
      .insert (L.load 3 20) 3, .insert (L.load 4 20) 4]
    ∃ t, writeAll L (empty 20) writes = .ok t ∧
      (t.size = 4 ∧ t.stats.four = 1 ∧ t.histogram.longStems = 1) ∧
        (∃ during after, LeadsBack L (L.load 5 20) 5 t during after) ∧
          ∃ during after, LeadsBack L (L.load 256 20) 256 t during after := by
  intro L writes
  obtain ⟨t, hrun, ht⟩ := exists_reachable L 20 writes (by decide +kernel)
  have hmade : (writeAll L (empty 20) writes).map (fun t => (t.size, t.stats.four,
      t.histogram.longStems, t.get L (L.load 5 20), t.get L (L.load 256 20))) =
        .ok (4, 1, 1, none, none) := by decide +kernel
  rw [hrun] at hmade
  simp only [Except.map, Except.ok.injEq, Prod.mk.injEq] at hmade
  obtain ⟨hsize, hfour, hlong, hfive, hother⟩ := hmade
  exact ⟨t, hrun, ⟨hsize, hfour, hlong⟩, erase_undoes_insert ht rfl rfl hfive,
    erase_undoes_insert ht rfl rfl hother⟩

end RadixIndex.DynamicTree
