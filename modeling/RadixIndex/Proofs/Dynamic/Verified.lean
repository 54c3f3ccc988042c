/-
# Trees in which the verifier finds nothing wrong

A dynamic tree may have been made in any way: with bytes out of order, with a table that
leads two bytes to the same slot, with other counts than it should have, with stems that the
keys below do not spell.  If the verifier finds nothing wrong with it, and there is something
in every slot that a node lists, then it answers as a tree made by writes does (`Trusted`).

What is wrong with a node is told by two sources.  The node itself shows whether it has
enough children, in the order of their bytes (`Node.Clean.ordered`).  Whether two bytes lead
to the same slot it does not show; but then each leaf below that slot is met twice, under
two paths, and its key cannot begin with both (`Node.Clean.apart`).

So the tree fits its place, but for what is left in slots that no byte leads to
(`Tree.fits_trimmed`), and nothing that goes through the tree comes there.
-/
import RadixIndex.Proofs.Checked
import RadixIndex.Proofs.Dynamic.Trimmed
import RadixIndex.Proofs.Trail

namespace RadixIndex

/-- If no more slots hold something than are listed, and each listed slot does, then there is
nothing in the others. -/
theorem Node.mem_slots_of_countP {H : Type} [NodeHeader H] {nd : Node H}
    (hapart : (nd.slots.map Prod.snd).Nodup) (hfilled : ∀ e ∈ nd.children, e.2 ≠ .empty)
    (hcount : (List.ofFn nd.child).countP (fun t => !t.isEmpty) ≤ nd.slots.length)
    {i : Fin (NodeHeader.width nd.header)} (hi : nd.child i ≠ .empty) :
    i ∈ nd.slots.map Prod.snd := by
  have hmem : ∀ j, j ∈ (List.finRange _).filter (fun j => !(nd.child j).isEmpty) ↔
      nd.child j ≠ .empty := by
    intro j
    rw [List.mem_filter, not_isEmpty_eq_true]
    exact and_iff_right (List.mem_finRange j)
  have hsub : nd.slots.map Prod.snd ⊆
      (List.finRange _).filter fun j => !(nd.child j).isEmpty := by
    intro j hj
    obtain ⟨s, hs, rfl⟩ := List.mem_map.mp hj
    exact (hmem s.2).mpr (hfilled _ (List.mem_map_of_mem hs))
  rw [List.ofFn_eq_map, List.countP_map, List.countP_eq_length_filter,
    ← List.length_map (f := Prod.snd)] at hcount
  exact ((hapart.subperm hsub).perm_of_length_le hcount).mem_iff.mpr ((hmem i).mpr hi)

namespace Dynamic

variable {L : Loader} {n : Nat} {path stem : Key}

/-! ## What the verifier tells of a node -/

namespace Node

/-- The verifier finds nothing wrong with the node, and the children listed are something. -/
structure Clean (nd : Node) : Prop where
  issues : Node.issues nd = []
  filled : ∀ e ∈ nd.children, e.2 ≠ .empty

theorem ordered_of_finderIssues {nd : Node} (h : finderIssues nd = []) :
    OrderedBy Prod.fst nd.slots := by
  obtain ⟨⟨stem, layout⟩, child⟩ := nd
  cases layout with
  | four keys used =>
      have hkeys : ascending (keys.toList.take used) = true := passed h
      exact ascending_map_fst.mp ((Keyed.map_fst_slots keys used).symm ▸ hkeys)
  | sixteen keys used =>
      have hkeys : ascending (keys.toList.take used) = true := passed h
      exact ascending_map_fst.mp ((Keyed.map_fst_slots keys used).symm ▸ hkeys)
  | fortyEight table count => exact Layout.tableSlots_ordered
  | full count => exact Direct.slots_ordered

/-- What the verifier has looked at in a node when it finds nothing wrong with it. -/
theorem passed_of_issues {nd : Node} (h : issues nd = []) :
    ((size nd).fanOut.1 ≤ nd.count ∧ nd.count ≤ (size nd).fanOut.2) ∧
      finderIssues nd = [] ∧ nd.slots.length = nd.count := by
  rw [issues, List.append_eq_nil_iff, List.append_eq_nil_iff] at h
  exact ⟨passed h.1.1, h.1.2, passed h.2⟩

namespace Clean

variable {nd : Node} (hnd : Clean nd)

include hnd

theorem ordered : OrderedBy Prod.fst nd.slots :=
  ordered_of_finderIssues (passed_of_issues hnd.issues).2.1

theorem count_eq : nd.count = nd.slots.length :=
  (passed_of_issues hnd.issues).2.2.symm

theorem two_le : 2 ≤ nd.slots.length := by
  obtain ⟨hfanOut, -, hcount⟩ := passed_of_issues hnd.issues
  rw [hcount]
  exact Nat.le_trans (Size.two_le_fanOut _) hfanOut.1

/-- Two bytes do not lead to the same slot, because no key goes on with both. -/
theorem apart (hbelow : ∀ e ∈ nd.children, (Tree.trimmed e.2).Fits L n (path ++ [e.1])) :
    (nd.slots.map Prod.snd).Nodup := by
  refine List.Nodup.map_on ?_ hnd.ordered.nodup
  rintro ⟨a, i⟩ ha ⟨b, j⟩ hb (rfl : i = j)
  have hfirst := hbelow _ (RadixIndex.Node.mem_children.mpr ⟨i, ha, rfl⟩)
  have hsecond := hbelow _ (RadixIndex.Node.mem_children.mpr ⟨i, hb, rfl⟩)
  obtain ⟨r, hr⟩ := hfirst.exists_mem
  have hpaths : path ++ [a] = path ++ [b] :=
    List.IsPrefix.eq_of_length (List.prefix_of_prefix_length_le (hfirst.path_of_mem hr)
      (hsecond.path_of_mem hr) (by simp)) (by simp)
  have hbytes : a = b := by simpa using hpaths
  rw [hbytes]

/-- What is in a slot is listed, unless it was left behind after the slots in use. -/
theorem listed (hapart : (nd.slots.map Prod.snd).Nodup)
    {i : Fin (NodeHeader.width nd.header)} (hi : nd.child i ≠ .empty) :
    i ∈ nd.slots.map Prod.snd ∨ NodeHeader.byByte nd.header = false ∧ nd.count ≤ i.val := by
  obtain ⟨-, hfinder, hcount⟩ := passed_of_issues hnd.issues
  have hfilled := hnd.filled
  obtain ⟨⟨stem, layout⟩, child⟩ := nd
  cases layout with
  | four keys used =>
      by_cases hused : i.val < used
      · exact Or.inl (Keyed.mem_slots_snd.mpr hused)
      · exact Or.inr ⟨rfl, Nat.le_of_not_lt hused⟩
  | sixteen keys used =>
      by_cases hused : i.val < used
      · exact Or.inl (Keyed.mem_slots_snd.mpr hused)
      · exact Or.inr ⟨rfl, Nat.le_of_not_lt hused⟩
  | fortyEight table count =>
      obtain ⟨-, hoccupied⟩ := passed hfinder
      exact Or.inl (RadixIndex.Node.mem_slots_of_countP hapart hfilled
        (Nat.le_of_eq (hoccupied.trans hcount.symm)) hi)
  | full count =>
      exact Or.inl (Direct.mem_slots_snd.mpr (RadixIndex.Node.not_isEmpty_eq_true.mpr hi))

end Clean

end Node

/-! ## What the verifier tells of a tree -/

namespace Tree

/-- Where nothing is wrong with the keys below a node, its stem can be read and begins with what
is kept of it, and nothing is wrong with the keys below the children. -/
theorem keyIssues_node {h : Header} {c : Fin (NodeHeader.width h) → Tree}
    (hkeys : keyIssues L n (.node h c) path = .ok []) :
    ∃ stem, (RadixIndex.Node.mk h c).fullStem L path.length n = .ok stem ∧
      h.stem.inline <+: stem ∧ ∀ e ∈ (RadixIndex.Node.mk h c).children,
        keyIssues L n e.2 (path ++ stem ++ [e.1]) = .ok [] := by
  rw [keyIssues] at hkeys
  obtain ⟨stem, hstem, hkeys⟩ := bind_eq_ok.mp hkeys
  obtain ⟨below, hbelow, hkeys⟩ := bind_eq_ok.mp hkeys
  obtain ⟨hown, hflatten⟩ := List.append_eq_nil_iff.mp (Except.ok.inj hkeys)
  have hkept : stem.take h.stem.inline.length = h.stem.inline := passed hown
  refine ⟨stem, hstem, List.prefix_iff_eq_take.mpr hkept.symm, ?_⟩
  rintro ⟨b, t⟩ he
  obtain ⟨i, hs, rfl⟩ := RadixIndex.Node.mem_children.mp he
  obtain ⟨issues, hmem, hissues⟩ := exists_of_mapM hbelow hs
  rw [List.flatten_eq_nil_iff.mp hflatten issues hmem] at hissues
  exact hissues

end Tree

namespace Node

variable {h : Header} {c : Fin (NodeHeader.width h) → Tree}

/-- There is a record to ask for the bytes of a stem that are not kept. -/
theorem Clean.exists_least (hclean : Clean ⟨h, c⟩)
    (hbelow : ∀ e ∈ (RadixIndex.Node.mk h c).children, ∃ path, (Tree.trimmed e.2).Fits L n path) :
    ∃ r, (RadixIndex.Tree.node h c).least? = some r := by
  have htwo := hclean.two_le
  rw [← RadixIndex.Node.length_children] at htwo
  obtain ⟨e, rest, hl⟩ := List.exists_cons_of_length_pos (Nat.lt_of_lt_of_le Nat.zero_lt_two htwo)
  obtain ⟨path, hfits⟩ := hbelow e (hl ▸ List.mem_cons_self)
  obtain ⟨r, hr, -⟩ := hfits.rooted.exists_least
  rw [Tree.least?_trimmed] at hr
  refine ⟨r, ?_⟩
  rw [RadixIndex.Tree.least?_node, hl]
  exact hr

/-- The stem that is read has the length that the node has down for it. -/
theorem Clean.length_fullStem (hclean : Clean ⟨h, c⟩) {depth : Nat}
    (hstem : (RadixIndex.Node.mk h c).fullStem L depth n = .ok stem)
    (hbelow : ∀ e ∈ (RadixIndex.Node.mk h c).children, ∃ path, (Tree.trimmed e.2).Fits L n path) :
    stem.length = h.stem.length := by
  have hinline := h.stem.inline_length
  obtain ⟨r, hleast⟩ := hclean.exists_least hbelow
  rw [RadixIndex.Node.fullStem] at hstem
  by_cases hwhole : h.stem.length ≤ h.stem.inline.length
  · have hwitness : (RadixIndex.Node.mk h c).witness? = none := if_pos hwhole
    rw [hwitness] at hstem
    have hread : h.stem.inline = stem := Except.ok.inj hstem
    rw [← hread]
    omega
  · have hwitness : (RadixIndex.Node.mk h c).witness? = some r := (if_neg hwhole).trans hleast
    rw [hwitness] at hstem
    exact (Key.length_slice hstem).trans (Nat.add_sub_cancel_left _ _)

/-- What is left of a clean node with the right keys below stands in its place. -/
theorem Clean.stands (hclean : Clean ⟨h, c⟩)
    (hstem : (RadixIndex.Node.mk h c).fullStem L path.length n = .ok stem)
    (hkept : h.stem.inline <+: stem)
    (hbelow : ∀ e ∈ (RadixIndex.Node.mk h c).children,
      (Tree.trimmed e.2).Fits L n (path ++ stem ++ [e.1])) :
    (RadixIndex.Node.mk h (trimmedCells h c)).Stands L n path stem where
  sound := by
    refine ⟨?_, ?_, ?_, ?_⟩
    · rw [slots_trimmed]
      exact hclean.ordered
    · rw [slots_trimmed]
      exact hclean.apart hbelow
    · intro i
      rw [slots_trimmed]
      show trimmedCells h c i ≠ .empty ↔ _
      by_cases hi : i ∈ (RadixIndex.Node.mk h c).slots.map Prod.snd
      · obtain ⟨s, hs, rfl⟩ := List.mem_map.mp hi
        have hfilled : c s.2 ≠ .empty := hclean.filled _ (List.mem_map_of_mem hs)
        rw [trimmedCells_listed h c hi]
        exact iff_of_true (Tree.trimmed_ne_empty hfilled) hi
      · rw [trimmedCells, if_neg hi]
        exact iff_of_false (absurd rfl) hi
    · rw [slots_trimmed]
      exact hclean.count_eq
  spells := ⟨hkept, hclean.length_fullStem hstem fun e he => ⟨_, hbelow e he⟩⟩
  two_le := by
    rw [RadixIndex.Node.length_children, slots_trimmed]
    exact hclean.two_le
  below := by
    rw [children_trimmed]
    intro e' he'
    obtain ⟨e, he, rfl⟩ := List.mem_map.mp he'
    exact hbelow e he

end Node

/-- A tree in which nothing is wrong fits its place, but for what no byte leads to. -/
theorem Tree.fits_trimmed {t : Tree} (hne : t ≠ .empty) (hclean : t.Each Node.Clean)
    (hkeys : t.keyIssues L n path = .ok []) : (trimmed t).Fits L n path := by
  induction t generalizing path with
  | empty => exact absurd rfl hne
  | leaf r =>
      rw [keyIssues] at hkeys
      exact .leaf (List.isPrefixOf_iff_prefix.mp (passed (Except.ok.inj hkeys)))
  | node h c ih =>
      obtain ⟨hroot, hbelow⟩ := (RadixIndex.Tree.each_node h c).mp hclean
      obtain ⟨stem, hstem, hkept, hkeys⟩ := keyIssues_node hkeys
      refine (hroot.stands hstem hkept ?_).fits
      rintro ⟨b, t⟩ he
      obtain ⟨i, -, rfl⟩ := RadixIndex.Node.mem_children.mp he
      exact ih i (hroot.filled _ he) (hbelow _ he) (hkeys _ he)

/-! ## What trimming does not change of a whole tree -/

namespace Tree

variable {t : Tree} {key : Key}

/-- In a tree that fits its place but for what no byte leads to, no two bytes of a node lead
to the same slot. -/
theorem each_apart (ht : trimmed t = .empty ∨ (trimmed t).Fits L n []) :
    t.Each fun nd => (nd.slots.map Prod.snd).Nodup := by
  intro nd hnd
  have hmem := List.mem_map_of_mem
    (f := fun nd : Node => (⟨nd.header, Node.trimmedCells nd.header nd.child⟩ : Node)) hnd
  rw [← nodes_trimmed] at hmem
  rcases ht with ht | ht
  · rw [ht] at hmem
    exact absurd hmem List.not_mem_nil
  · have hapart := (ht.rooted.each_sound _ hmem).apart
    rwa [Node.slots_trimmed] at hapart

variable (ht : trimmed t = .empty ∨ (trimmed t).Fits L n []) (hk : key.length = n)

include ht hk

theorem getFrom_of_trimmed {r : Record} :
    getFrom L key t 0 false = some r ↔ r ∈ t.records ∧ L.load r n = key := by
  rw [← getFrom_trimmed, ← records_trimmed]
  rcases ht with ht | ht
  · rw [ht]
    exact ⟨nofun, fun ⟨hr, _⟩ => absurd hr List.not_mem_nil⟩
  · exact getFrom_eq_some ht hk fun _ => List.nil_prefix

theorem getCheckedFrom_of_trimmed :
    getCheckedFrom L key t 0 = .ok (getFrom L key t 0 false) := by
  rw [← getFrom_trimmed, ← getCheckedFrom_trimmed]
  rcases ht with ht | ht
  · rw [ht]
    rfl
  · exact getCheckedFrom_eq ht hk List.nil_prefix false

omit hk in
theorem getGuarded_of_trimmed (hn : n ≤ Key.maxOffset) :
    t.getGuarded L key 0 false = .ok (getFrom L key t 0 false) := by
  rw [← getFrom_trimmed, ← getGuarded_trimmed]
  rcases ht with ht | ht
  · rw [ht]
    rfl
  · obtain ⟨found, hfound⟩ : ∃ found, (trimmed t).getGuarded L key 0 false = .ok found :=
      RadixIndex.Tree.getGuarded_answers ht.rooted hn false
    exact getGuarded_agrees hfound ▸ hfound

end Tree

end Dynamic

/-! ## Whole trees -/

namespace DynamicTree

/-- The tree answers as one that writes have made: a record is found under its key and nothing
else is, and walks go through all records in order. -/
structure Trusted (L : Loader) (t : DynamicTree) : Prop where
  get_eq_some : ∀ key : Key, key.length = t.keyLength → ∀ r,
    t.get L key = some r ↔ r ∈ t.root.records ∧ L.load r t.keyLength = key
  /-- A search that guards its offsets does not fault. -/
  getGuarded_eq : ∀ key : Key, t.root.getGuarded L key 0 false = .ok (t.get L key)
  getChecked_eq : ∀ key : Key, key.length = t.keyLength →
    t.getChecked L key = .ok (t.get L key)
  toList_eq : t.toList = t.root.records
  length_toList : t.toList.length = t.size
  ascending : (t.toList.map fun r => L.load r t.keyLength).Pairwise (· < ·)
  /-- A cursor walks through the records, and so does a trail, which never faults. -/
  first_walks : t.first.Walks t.toList
  exists_trail : ∃ trail, Trail.first t.root = .ok trail ∧
    ∀ calls : List Cursor.Call, ∃ states, run Trail.answer trail calls = .ok states ∧
      states.map Prod.fst = (history (Cursor.Call.onIndex t.toList) 0 calls).map Prod.fst
  /-- Nothing is in a slot that no byte leads to, but what was left behind after the slots in
  use of a node with key bytes. -/
  listed : t.root.Each fun nd => ∀ i, nd.child i ≠ .empty →
    i ∈ nd.slots.map Prod.snd ∨ NodeHeader.byByte nd.header = false ∧ nd.count ≤ i.val

variable {L : Loader} {t : DynamicTree}

/-- What the verifier has looked at when it answers with nothing. -/
theorem verifyWith_eq_nil (h : t.verifyWith L = .ok []) :
    t.keyLength ≤ Key.maxLength ∧ t.root.leafCount = t.size ∧
      t.root.Each (fun nd => Dynamic.Node.issues nd = []) ∧
      t.root.keyIssues L t.keyLength [] = .ok [] := by
  rw [verifyWith] at h
  split at h
  · rename_i hroom
    obtain ⟨issues, hkeys, h⟩ := bind_eq_ok.mp h
    obtain ⟨hverify, rfl⟩ := List.append_eq_nil_iff.mp (Except.ok.inj h)
    rw [verify, List.append_eq_nil_iff, List.append_eq_nil_iff] at hverify
    exact ⟨hroom, passed hverify.1.1, List.flatMap_eq_nil_iff.mp hverify.1.2, hkeys⟩
  · cases h

/-- Of a tree with something in every listed slot, in which the verifier finds nothing wrong,
what is left without the slots that no byte leads to fits its place. -/
theorem trimmed_of_verified (hfilled : t.root.Each fun nd => ∀ e ∈ nd.children, e.2 ≠ .empty)
    (h : t.verifyWith L = .ok []) :
    Dynamic.Tree.trimmed t.root = .empty ∨
      (Dynamic.Tree.trimmed t.root).Fits L t.keyLength [] := by
  obtain ⟨-, -, hissues, hkeys⟩ := verifyWith_eq_nil h
  by_cases hroot : t.root = .empty
  · rw [hroot]
    exact Or.inl rfl
  · exact Or.inr (Dynamic.Tree.fits_trimmed hroot
      (fun nd hnd => ⟨hissues nd hnd, hfilled nd hnd⟩) hkeys)

/-- The verifier can be trusted, with any tree and any loader: a tree in which no listed slot is
empty and with which it finds nothing wrong answers as it should. -/
theorem trusted_of_verified (L : Loader) (t : DynamicTree)
    (hfilled : t.root.Each fun nd => ∀ e ∈ nd.children, e.2 ≠ .empty)
    (h : t.verifyWith L = .ok []) : t.Trusted L := by
  obtain ⟨hroom, hsize, hissues, -⟩ := verifyWith_eq_nil h
  have hfits := trimmed_of_verified hfilled h
  have hshows := Cursor.first_shows (Tree.rooted_of_root hfits)
  rw [Dynamic.Tree.records_trimmed] at hshows
  have hlist : t.toList = t.root.records := by
    rw [toList, ← Dynamic.Tree.toList_trimmed]
    exact hshows.rest_eq
  have hordered : L.Ordered t.keyLength t.root.records := by
    rw [← Dynamic.Tree.records_trimmed]
    exact Tree.ordered_of_root (Tree.rooted_of_root hfits)
  have hwalks : t.first.Walks t.toList := by
    rw [Dynamic.Cursor.first_trimmed] at hshows
    exact hlist ▸ Dynamic.Cursor.walks_trimmed _ hshows.walks
  exact
    { get_eq_some := fun key hk r => Dynamic.Tree.getFrom_of_trimmed hfits hk
      getGuarded_eq := fun key =>
        Dynamic.Tree.getGuarded_of_trimmed hfits (Nat.le_trans hroom (by decide))
      getChecked_eq := fun key hk => Dynamic.Tree.getCheckedFrom_of_trimmed hfits hk
      toList_eq := hlist
      length_toList := by rw [hlist, ← hsize, Tree.leafCount_eq]
      ascending := by
        rw [hlist]
        exact List.pairwise_map.mpr hordered
      first_walks := hwalks
      exists_trail := Trail.exists_walks (Trail.toCursor_first t.root) hwalks
      listed := fun nd hnd i hi => Dynamic.Node.Clean.listed ⟨hissues nd hnd, hfilled nd hnd⟩
        (Dynamic.Tree.each_apart hfits nd hnd) hi }

/-- A tree of two records that no writes make: a leaf was left behind after the slots in use. -/
def leftBehind : DynamicTree where
  root := .node ⟨⟨11, List.replicate 9 0, rfl⟩, .four #v[1, 2, 7, 0] ⟨2, by decide⟩⟩
    (RadixIndex.Node.cellsOf #v[.leaf 1, .leaf 258, .leaf 7, .empty])
  keyLength := 12
  size := 2
  stats := { four := 1, memory := 88 }

/-- A stem that is not kept whole, and a leaf in a slot that no byte leads to. -/
theorem trusted_of_verified_of_left_behind :
    (leftBehind.root.Each fun nd => ∀ e ∈ nd.children, e.2 ≠ .empty) ∧
      leftBehind.verifyWith (.modulo 256) = .ok [] ∧ leftBehind.Trusted (.modulo 256) := by
  have hleaves : ∀ e ∈ [((1 : UInt8), (.leaf 1 : Dynamic.Tree)), (2, .leaf 258)],
      ∃ r, e.2 = .leaf r := by
    simp
  have hfilled : leftBehind.root.Each fun nd => ∀ e ∈ nd.children, e.2 ≠ .empty := by
    refine (Tree.each_node _ _).mpr ⟨?_, ?_⟩
    · intro e he
      obtain ⟨r, hr⟩ := hleaves e he
      exact hr ▸ nofun
    · intro e he
      obtain ⟨r, hr⟩ := hleaves e he
      exact hr ▸ Tree.each_leaf r
  have hverified : leftBehind.verifyWith (.modulo 256) = .ok [] := by rfl
  exact ⟨hfilled, hverified, trusted_of_verified _ _ hfilled hverified⟩

end DynamicTree

end RadixIndex
