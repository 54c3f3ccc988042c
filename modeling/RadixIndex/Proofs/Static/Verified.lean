/-
# Static trees in which the verifier finds nothing wrong

A static tree may have been made in any way: with key bytes out of order, with other counts
than it should have, with stems and bytes on the way to a leaf that its key does not begin
with, with nodes that have a single child.  If the verifier finds nothing wrong with it, and no
node is without children, then it answers as a tree that was frozen or merged does (`Upheld`).

What the verifier looks at in a node on its own makes the node sound
(`Node.sound_of_issues`), and what it looks at in the keys puts every leaf where it belongs, so
the tree is rooted (`Tree.rooted_of_issues`).  That is all that searches and walks rest on.

In a sound node it does not matter how a byte is looked for.  So the search that goes by the
shape of each node and halves its key bytes finds, under a key of any length, what the plain
search finds (`Tree.searchFor_eq`).
-/
import RadixIndex.Proofs.Guarded
import RadixIndex.Proofs.Static.Integrity
import RadixIndex.Proofs.Static.Interchange
import RadixIndex.Proofs.Trail

namespace RadixIndex.Static

variable {L : Loader} {n : Nat} {path : Key}

/-! ## What the verifier tells of a node -/

namespace Node

/-- What the verifier has looked at in a node when it finds nothing wrong with it. -/
theorem passed_of_issues {nd : Node} (h : issues nd = []) :
    nd.slots.length = nd.count ∧ OrderedBy Prod.fst nd.slots ∧ ∀ e ∈ nd.children, e.2 ≠ .empty := by
  rw [issues] at h
  simp only [List.append_eq_nil_iff] at h
  obtain ⟨⟨⟨⟨-, hcount⟩, hascending⟩, hfilled⟩, -⟩ := h
  refine ⟨?_, ascending_map_fst.mp (passed hascending), ?_⟩
  · rw [← List.length_map (f := Prod.fst)]
    exact passed hcount
  · intro e he hempty
    have hany : (nd.children.any fun e => e.2.isEmpty) = true :=
      List.any_eq_true.mpr ⟨e, he, RadixIndex.Node.isEmpty_eq_true.mpr hempty⟩
    exact List.cons_ne_nil _ _ ((if_pos hany).symm.trans hfilled)

/-- A node lists the slots that hold something, or every slot that it has, each once. -/
theorem slots_snd (nd : Node) : (nd.slots.map Prod.snd).Nodup ∧
    ∀ i, (nd.child i ≠ .empty → i ∈ nd.slots.map Prod.snd) := by
  obtain ⟨header, child⟩ := nd
  cases header with
  | dense keys => exact ⟨Keyed.slots_apart, fun i _ => Keyed.mem_slots_snd.mpr i.isLt⟩
  | denseStem stem keys => exact ⟨Keyed.slots_apart, fun i _ => Keyed.mem_slots_snd.mpr i.isLt⟩
  | loose stem keys => exact ⟨Keyed.slots_apart, fun i _ => Keyed.mem_slots_snd.mpr i.isLt⟩
  | full count =>
      exact ⟨Direct.slots_apart, fun i hi =>
        Direct.mem_slots_snd.mpr (RadixIndex.Node.not_isEmpty_eq_true.mpr hi)⟩
  | fullStem stem count =>
      exact ⟨Direct.slots_apart, fun i hi =>
        Direct.mem_slots_snd.mpr (RadixIndex.Node.not_isEmpty_eq_true.mpr hi)⟩

/-- Listing, finding and counting agree in a node with which nothing is wrong. -/
theorem sound_of_issues {nd : Node} (h : issues nd = []) : nd.Sound := by
  obtain ⟨hcount, hordered, hfilled⟩ := passed_of_issues h
  obtain ⟨hapart, hlisted⟩ := slots_snd nd
  refine ⟨hordered, hapart, fun i => ⟨hlisted i, ?_⟩, hcount.symm⟩
  intro hi
  obtain ⟨s, hs, rfl⟩ := List.mem_map.mp hi
  exact hfilled _ (List.mem_map_of_mem hs)

theorem search_eq_searchSlot (nd : Node) (b : UInt8) :
    search nd b = (searchSlot nd b).map nd.child := by
  rw [search, searchSlot]
  cases sortedKeys? nd with
  | some keys =>
      dsimp only
      split <;> rfl
  | none =>
      dsimp only
      cases NodeHeader.slotAt nd.header b.toNat with
      | none => rfl
      | some i =>
          rw [Option.map_some, Option.filter_some, Option.filter_some]
          split <;> rfl

end Node

/-! ## What the verifier tells of a tree -/

namespace Tree

/-- A tree in which nothing is wrong is rooted, if no node is without children. -/
theorem rooted_of_issues {t : Tree} (hne : t ≠ .empty)
    (hissues : t.Each fun nd => Node.issues nd = []) (hone : t.Each fun nd => nd.children ≠ [])
    (hkeys : t.keyIssues L n path = []) : t.Rooted L n path := by
  induction t generalizing path with
  | empty => exact absurd rfl hne
  | leaf r =>
      rw [keyIssues] at hkeys
      exact .leaf (List.isPrefixOf_iff_prefix.mp (passed hkeys))
  | node h c ih =>
      obtain ⟨hroot, hissues⟩ := (RadixIndex.Tree.each_node h c).mp hissues
      obtain ⟨hchild, hone⟩ := (RadixIndex.Tree.each_node h c).mp hone
      have hsound := Node.sound_of_issues hroot
      rw [keyIssues, List.flatMap_eq_nil_iff] at hkeys
      refine .node hsound (Node.spells_iff.mpr rfl) hchild ?_
      rintro ⟨b, t⟩ he
      obtain ⟨i, hs, rfl⟩ := RadixIndex.Node.mem_children.mp he
      exact ih i (hsound.child_ne_empty he) (hissues _ he) (hone _ he) (hkeys _ hs)

theorem searchFor_node {h : Header} {c : Fin (NodeHeader.width h) → Tree} {key : Key}
    {depth : Nat} : searchFor L key (.node h c) depth =
      if Key.continuesWith key depth h.stem then
        (key[depth + h.stem.length]?.bind (Node.search ⟨h, c⟩)).bind fun t =>
          searchFor L key t (depth + h.stem.length + 1)
      else none := by
  rw [searchFor]
  split
  · dsimp only
    cases key[depth + h.stem.length]? with
    | none => rfl
    | some b =>
        rw [Option.bind_some, Node.search_eq_searchSlot]
        dsimp only
        cases Node.searchSlot ⟨h, c⟩ b <;> rfl
  · rfl

/-- In sound nodes it does not matter how a byte is looked for. -/
theorem searchFor_eq {t : Tree} (ht : t.Each RadixIndex.Node.Sound) (key : Key) (depth : Nat) :
    searchFor L key t depth = getFrom L key t depth := by
  induction t generalizing depth with
  | empty => rfl
  | leaf r => rfl
  | node h c ih =>
      obtain ⟨hsound, hbelow⟩ := (RadixIndex.Tree.each_node h c).mp ht
      rw [searchFor_node, getFrom_node]
      split
      · cases key[depth + h.stem.length]? with
        | none => rfl
        | some b =>
            rw [Option.bind_some, Option.bind_some, Node.search_eq hsound, RadixIndex.Node.child?]
            cases hfind : (RadixIndex.Node.mk h c).find b with
            | none => rfl
            | some i => exact ih i (hbelow _ (hsound.mem_children_of_find hfind)) _
      · rfl

end Tree

end RadixIndex.Static

/-! ## Whole trees -/

namespace RadixIndex.StaticTree

open RadixIndex.Static

/-- The tree answers as one that was frozen or merged does: a record is found under its key and
nothing else is, and walks go in order through all records, or through those from a key on. -/
structure Upheld (L : Loader) (t : StaticTree) : Prop where
  get_eq_some : ∀ key : Key, key.length = t.keyLength → ∀ r,
    t.get L key = some r ↔ r ∈ t.root.records ∧ L.load r t.keyLength = key
  /-- A search that guards its offsets does not fault. -/
  getGuarded_eq : ∀ key : Key, t.root.getGuarded L key 0 false = .ok (t.get L key)
  /-- A search that goes by the shapes of the nodes finds the same. -/
  searchFor_eq : ∀ key : Key, t.root.searchFor L key 0 = t.get L key
  /-- By its shape, too, each node finds and seeks a byte as its list of children says. -/
  searches : t.root.Each fun nd => ∀ b,
    Node.search nd b = nd.child? b ∧ Node.searchFrom nd b = nd.seek b
  /-- Nothing is in a slot that no byte leads to. -/
  listed : t.root.Each fun nd => ∀ i, nd.child i ≠ .empty ↔ i ∈ nd.slots.map Prod.snd
  toList_eq : t.toList = t.root.records
  length_toList : t.toList.length = t.size
  ascending : (t.toList.map fun r => L.load r t.keyLength).Pairwise (· < ·)
  /-- A cursor walks through the records, and so does a trail, which never faults. -/
  first_walks : t.first.Walks t.toList ∧
    ∃ trail, Trail.first t.root = .ok trail ∧ trail.Walks t.toList
  /-- From a key on, both walk through the records whose keys are not smaller. -/
  lowerBound_walks : ∀ key : Key, key.length = t.keyLength →
    ∃ cur trail records, t.lowerBound L key = .ok cur ∧ Trail.lowerBound L t.root key = .ok trail ∧
      records = t.toList.filter (fun r => decide (key ≤ L.load r t.keyLength)) ∧
      cur.rest.1 = records ∧ cur.Walks records ∧ trail.Walks records

variable {L : Loader} {t : StaticTree}

/-- What the verifier has looked at when it answers with nothing. -/
theorem verifyWith_eq_nil (h : t.verifyWith L = .ok []) :
    t.keyLength ≤ Key.maxLength ∧ t.root.leafCount = t.size ∧
      t.root.Each (fun nd => Node.issues nd = []) ∧ t.root.keyIssues L t.keyLength [] = [] := by
  rw [verifyWith] at h
  split at h
  · rename_i hroom
    obtain ⟨hverify, hkeys⟩ := List.append_eq_nil_iff.mp (Except.ok.inj h)
    rw [verify, List.append_eq_nil_iff] at hverify
    exact ⟨hroom, passed hverify.1, List.flatMap_eq_nil_iff.mp hverify.2, hkeys⟩
  · cases h

/-- A tree without childless nodes with which the verifier finds nothing wrong is rooted. -/
theorem rooted_of_verified (hone : t.root.Each fun nd => nd.children ≠ [])
    (h : t.verifyWith L = .ok []) : t.root = .empty ∨ t.root.Rooted L t.keyLength [] := by
  obtain ⟨-, -, hissues, hkeys⟩ := verifyWith_eq_nil h
  by_cases hroot : t.root = .empty
  · exact Or.inl hroot
  · exact Or.inr (Static.Tree.rooted_of_issues hroot hissues hone hkeys)

section Rooted

variable (h : t.root = .empty ∨ t.root.Rooted L t.keyLength [])

include h

theorem getGuarded_of_rooted (hroom : t.keyLength ≤ Key.maxOffset) (key : Key) :
    t.root.getGuarded L key 0 false = .ok (t.get L key) := by
  obtain ⟨found, hfound⟩ : ∃ found, t.root.getGuarded L key 0 false = .ok found :=
    RadixIndex.Tree.getGuarded_answers_of_root h hroom
  rw [hfound, get, Tree.getGuarded_agrees hfound]

theorem toList_of_rooted : t.toList = t.root.records := (Cursor.first_shows h).rest_eq

/-- From a key on, cursors and trails walk through the records whose keys are not smaller. -/
theorem lowerBound_of_rooted {key : Key} (hk : key.length = t.keyLength) :
    ∃ cur trail records, t.lowerBound L key = .ok cur ∧ Trail.lowerBound L t.root key = .ok trail ∧
      records = t.toList.filter (fun r => decide (key ≤ L.load r t.keyLength)) ∧
      cur.rest.1 = records ∧ cur.Walks records ∧ trail.Walks records := by
  rw [toList_of_rooted h]
  obtain ⟨cur, hcur, hshows⟩ := Cursor.lowerBound_ok h hk
  obtain ⟨trail, htrail, hwalks⟩ :=
    Trail.exists_walks ((Trail.toCursor_lowerBound L t.root key).trans hcur) hshows.walks
  exact ⟨cur, trail, _, hcur, htrail, rfl, hshows.rest_eq, hshows.walks, hwalks⟩

end Rooted

/-- The verifier can be trusted, with any tree and any loader: a tree in which no node is without
children and with which it finds nothing wrong answers as it should. -/
theorem upheld_of_verified (L : Loader) (t : StaticTree)
    (hone : t.root.Each fun nd => nd.children ≠ []) (h : t.verifyWith L = .ok []) :
    t.Upheld L := by
  obtain ⟨hroom, hsize, hissues, -⟩ := verifyWith_eq_nil h
  have hrooted := rooted_of_verified hone h
  have hsound : t.root.Each RadixIndex.Node.Sound :=
    hissues.imp fun nd hnd => Node.sound_of_issues hnd
  have hlist := toList_of_rooted hrooted
  have hwalks : t.first.Walks t.toList := hlist ▸ (Cursor.first_shows hrooted).walks
  exact
    { get_eq_some := fun key hk r => Tree.getFrom_root hrooted hk
      getGuarded_eq := getGuarded_of_rooted hrooted (Nat.le_trans hroom (by decide))
      searchFor_eq := fun key => Tree.searchFor_eq hsound key 0
      searches := hsound.imp fun nd hnd b => ⟨Node.search_eq hnd b, Node.searchFrom_eq hnd b⟩
      listed := hsound.imp fun nd hnd => hnd.occupied
      toList_eq := hlist
      length_toList := by rw [hlist, ← hsize, RadixIndex.Tree.leafCount_eq]
      ascending := by
        rw [hlist]
        exact List.pairwise_map.mpr (RadixIndex.Tree.ordered_of_root hrooted)
      first_walks := ⟨hwalks, Trail.exists_walks (Trail.toCursor_first t.root) hwalks⟩
      lowerBound_walks := fun key hk => lowerBound_of_rooted hrooted hk }

/-- A tree of two records that is neither frozen nor merged: its root has a single child. -/
def singleBranch : StaticTree where
  root := .node (.denseStem [0, 0] [5]) (RadixIndex.Node.cellsOf #v[
    .node (.dense [1, 2]) (RadixIndex.Node.cellsOf #v[.leaf 0x501, .leaf 0x502])])
  keyLength := 4
  size := 2
  stats := { dense := 1, denseStem := 1, memory := 245 }

/-- A node that no writes make. -/
theorem upheld_of_verified_of_single_branch :
    (singleBranch.root.Each fun nd => nd.children ≠ []) ∧
      singleBranch.verifyWith (.modulo 65536) = .ok [] ∧ singleBranch.Upheld (.modulo 65536) := by
  have hone : singleBranch.root.Each fun nd => nd.children ≠ [] := by
    refine (RadixIndex.Tree.each_node _ _).mpr ⟨List.cons_ne_nil _ _, ?_⟩
    intro e he
    obtain rfl := List.mem_singleton.mp he
    refine (RadixIndex.Tree.each_node _ _).mpr ⟨List.cons_ne_nil _ _, ?_⟩
    have hleaves : ∀ e ∈ [((1 : UInt8), (.leaf 0x501 : Static.Tree)), (2, .leaf 0x502)],
        ∃ r, e.2 = .leaf r := by
      simp
    intro e he
    obtain ⟨r, hr⟩ := hleaves e he
    exact hr ▸ RadixIndex.Tree.each_leaf r
  have hverified : singleBranch.verifyWith (.modulo 65536) = .ok [] := by rfl
  exact ⟨hone, hverified, upheld_of_verified _ _ hone hverified⟩

end RadixIndex.StaticTree
