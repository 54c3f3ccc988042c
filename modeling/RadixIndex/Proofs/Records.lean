/-
# The records of a tree and the paths to them

`Tree.records` lists what a tree holds, in the order of the walk.  `Tree.Fits` says
that a tree stands in its place: every node is sound, has at least two children
and keeps its stem, and the key of every leaf begins with all that leads to it.
It is the invariant that both families of trees share.  For what is read off a tree
it is enough that each node has a child (`Tree.Rooted`), and of such a tree it holds
that

    path_of_mem        the keys of the records begin with the path to the tree
    records_ordered    the records come in the order of their keys
    exists_least       there is a smallest record, and `Tree.least?` finds it

A node is not asked for its whole stem, only for a beginning of it (`Node.Spells`);
for the node of a static tree this beginning is the stem.
-/
import RadixIndex.Key.Loader
import RadixIndex.Proofs.Key
import RadixIndex.Proofs.Node

namespace RadixIndex

variable {H : Type} [NodeHeader H]

/-- The order of records by their keys of `n` bytes. -/
abbrev Loader.Ordered (L : Loader) (n : Nat) (rs : List Record) : Prop :=
  OrderedBy (fun r => L.load r n) rs

namespace Tree

/-! ## Records -/

/-- The records of a tree. -/
def records : Tree H → List Record
  | .empty => []
  | .leaf r => [r]
  | .node h c => (NodeHeader.slots h fun i => !(c i).isEmpty).flatMap fun s => (c s.2).records

variable (h : H) (c : Fin (NodeHeader.width h) → Tree H)

@[simp]
theorem records_empty : (Tree.empty : Tree H).records = [] := rfl

@[simp]
theorem records_leaf (r : Record) : (Tree.leaf r : Tree H).records = [r] := rfl

theorem records_node :
    (Tree.node h c).records = (Node.mk h c).children.flatMap fun e => e.2.records := by
  rw [records, Node.children, List.flatMap_map]
  rfl

theorem nodes_node :
    (Tree.node h c).nodes = ⟨h, c⟩ :: (Node.mk h c).children.flatMap fun e => e.2.nodes := by
  rw [nodes, Node.children, List.flatMap_map]
  rfl

theorem least?_node :
    (Tree.node h c).least? = (Node.mk h c).children.head?.bind fun e => e.2.least? := by
  rw [least?, Node.children, Node.slots]
  cases NodeHeader.slots h fun i => !(c i).isEmpty <;> rfl

theorem leafCount_eq (t : Tree H) : t.leafCount = t.records.length := by
  induction t with
  | empty => rfl
  | leaf r => rfl
  | node h c ih =>
      rw [leafCount, records, List.length_flatMap]
      exact congrArg List.sum (List.map_congr_left fun s _ => ih s.2)

theorem mem_records_node {r : Record} :
    r ∈ (Tree.node h c).records ↔ ∃ e ∈ (Node.mk h c).children, r ∈ e.2.records := by
  rw [records_node, List.mem_flatMap]

/-- Every inner node of the tree has the property. -/
def Each (P : Node H → Prop) (t : Tree H) : Prop := ∀ n ∈ t.nodes, P n

variable {P : Node H → Prop}

theorem each_leaf (r : Record) : (Tree.leaf r : Tree H).Each P :=
  fun _ h => absurd h List.not_mem_nil

theorem each_node :
    (Tree.node h c).Each P ↔ P ⟨h, c⟩ ∧ ∀ e ∈ (Node.mk h c).children, e.2.Each P := by
  simp only [Each, nodes_node, List.mem_cons, List.mem_flatMap]
  constructor
  · intro hall
    exact ⟨hall _ (Or.inl rfl), fun e he n hn => hall n (Or.inr ⟨e, he, hn⟩)⟩
  · rintro ⟨hroot, hbelow⟩ n (rfl | ⟨e, he, hn⟩)
    · exact hroot
    · exact hbelow e he n hn

theorem Each.imp {Q : Node H → Prop} {t : Tree H} (h : t.Each P) (hpq : ∀ n, P n → Q n) :
    t.Each Q :=
  fun n hn => hpq n (h n hn)

end Tree

/-! ## Trees in their place -/

/-- The stem of the node is `stem`, as far as the node keeps it. -/
structure Node.Spells (n : Node H) (stem : Key) : Prop where
  kept : n.stemBytes <+: stem
  length : stem.length = n.stemLength

/-- The tree stands where `path` leads to, in an index of keys of `n` bytes. -/
inductive Tree.Fits (L : Loader) (n : Nat) : Key → Tree H → Prop
  | leaf {path : Key} {r : Record} : path <+: L.load r n → Fits L n path (.leaf r)
  | node {path stem : Key} {h : H} {c : Fin (NodeHeader.width h) → Tree H} :
      (Node.mk h c).Sound → (Node.mk h c).Spells stem → 2 ≤ (Node.mk h c).children.length →
      (∀ e ∈ (Node.mk h c).children, Fits L n (path ++ stem ++ [e.1]) e.2) →
      Fits L n path (.node h c)

/-- Every leaf of the tree is where `path` and the stems and bytes below it lead, and no node
is without children.  Less is asked for than that the tree fits its place: a node may have a
single child. -/
inductive Tree.Rooted (L : Loader) (n : Nat) : Key → Tree H → Prop
  | leaf {path : Key} {r : Record} : path <+: L.load r n → Rooted L n path (.leaf r)
  | node {path stem : Key} {h : H} {c : Fin (NodeHeader.width h) → Tree H} :
      (Node.mk h c).Sound → (Node.mk h c).Spells stem → (Node.mk h c).children ≠ [] →
      (∀ e ∈ (Node.mk h c).children, Rooted L n (path ++ stem ++ [e.1]) e.2) →
      Rooted L n path (.node h c)

namespace Tree.Rooted

variable {L : Loader} {n : Nat} {path : Key} {t : Tree H}

theorem exists_mem (ht : t.Rooted L n path) : ∃ r, r ∈ t.records := by
  induction ht with
  | leaf _ => exact ⟨_, List.mem_singleton_self _⟩
  | @node path stem h c _ _ hone _ ih =>
      obtain ⟨e, he⟩ := List.exists_mem_of_ne_nil _ hone
      obtain ⟨r, hr⟩ := ih e he
      exact ⟨r, (mem_records_node h c).mpr ⟨e, he, hr⟩⟩

/-- The keys of all records begin with the path to the tree. -/
theorem path_of_mem (ht : t.Rooted L n path) {r : Record} (hr : r ∈ t.records) :
    path <+: L.load r n := by
  induction ht with
  | leaf hp =>
      rw [records_leaf, List.mem_singleton] at hr
      exact hr ▸ hp
  | node _ _ _ _ ih =>
      obtain ⟨e, he, hre⟩ := (mem_records_node _ _).mp hr
      exact Key.prefix_of_append (Key.prefix_of_append (ih e he hre))

/-- There is room in the keys for the path. -/
theorem length_path_le (ht : t.Rooted L n path) : path.length ≤ n := by
  obtain ⟨r, hr⟩ := ht.exists_mem
  exact L.length_load r n ▸ (ht.path_of_mem hr).length_le

/-- Trees under different bytes have no key in common, and the byte decides which
keys are smaller. -/
theorem load_lt {a b : UInt8} {s t : Tree H} (hs : s.Rooted L n (path ++ [a]))
    (ht : t.Rooted L n (path ++ [b])) (hab : a < b) {r r' : Record} (hr : r ∈ s.records)
    (hr' : r' ∈ t.records) : L.load r n < L.load r' n :=
  Key.lt_of_fork (hs.path_of_mem hr) (ht.path_of_mem hr') hab

theorem records_ordered (ht : t.Rooted L n path) : L.Ordered n t.records := by
  induction ht with
  | leaf _ => exact List.pairwise_singleton _ _
  | node hsound _ _ hbelow ih =>
      rw [records_node]
      refine List.pairwise_flatMap.mpr ?_
      refine ⟨ih, hsound.children_ordered.imp_of_mem ?_⟩
      intro e e' he he' hlt r hr r' hr'
      exact (hbelow e he).load_lt (hbelow e' he') hlt hr hr'

theorem each_sound (ht : t.Rooted L n path) : t.Each Node.Sound := by
  induction ht with
  | leaf _ => exact each_leaf _
  | node hsound _ _ _ ih => exact (each_node _ _).mpr ⟨hsound, ih⟩

/-- `Tree.least?` finds the first record. -/
theorem least?_eq (ht : t.Rooted L n path) : t.least? = t.records.head? := by
  induction ht with
  | leaf _ => rfl
  | @node path stem h c _ _ hone hbelow ih =>
      rw [least?_node, records_node]
      cases hl : (Node.mk h c).children with
      | nil => exact absurd hl hone
      | cons e rest =>
          have he : e ∈ (Node.mk h c).children := hl ▸ List.mem_cons_self
          obtain ⟨r, hr⟩ := (hbelow e he).exists_mem
          obtain ⟨r', tail, hcons⟩ := List.exists_cons_of_ne_nil (List.ne_nil_of_mem hr)
          have hleast := ih e he
          rw [hcons] at hleast
          rw [List.flatMap_cons, hcons]
          exact hleast

theorem exists_least (ht : t.Rooted L n path) : ∃ r, t.least? = some r ∧ r ∈ t.records := by
  obtain ⟨r, hr⟩ := ht.exists_mem
  obtain ⟨r', tail, hcons⟩ := List.exists_cons_of_ne_nil (List.ne_nil_of_mem hr)
  exact ⟨r', by rw [ht.least?_eq, hcons]; rfl, hcons ▸ List.mem_cons_self⟩

end Tree.Rooted

namespace Tree.Fits

variable {L : Loader} {n : Nat} {path : Key} {t : Tree H}

theorem rooted (ht : t.Fits L n path) : t.Rooted L n path := by
  induction ht with
  | leaf hp => exact .leaf hp
  | node hsound hspells htwo _ ih =>
      exact .node hsound hspells (List.ne_nil_of_length_pos (Nat.lt_of_succ_lt htwo)) ih

theorem ne_empty (ht : t.Fits L n path) : t ≠ .empty := by
  cases ht <;> exact nofun

theorem exists_mem (ht : t.Fits L n path) : ∃ r, r ∈ t.records := ht.rooted.exists_mem

theorem path_of_mem (ht : t.Fits L n path) {r : Record} (hr : r ∈ t.records) :
    path <+: L.load r n := ht.rooted.path_of_mem hr

end Tree.Fits

/-- A whole tree, which may be empty, is rooted if it fits. -/
theorem Tree.rooted_of_root {L : Loader} {n : Nat} {t : Tree H}
    (ht : t = .empty ∨ t.Fits L n []) : t = .empty ∨ t.Rooted L n [] :=
  ht.imp_right Fits.rooted

/-- The records of a whole tree, which may be empty, come in the order of their keys. -/
theorem Tree.ordered_of_root {L : Loader} {n : Nat} {t : Tree H}
    (ht : t = .empty ∨ t.Rooted L n []) : L.Ordered n t.records := by
  rcases ht with rfl | ht
  · exact .nil
  · exact ht.records_ordered

/-- What `Tree.Rooted` says of an inner node whose stem is `stem`. -/
structure Node.Rooted (L : Loader) (n : Nat) (path stem : Key) (nd : Node H) : Prop where
  sound : nd.Sound
  spells : nd.Spells stem
  ne_nil : nd.children ≠ []
  below : ∀ e ∈ nd.children, e.2.Rooted L n (path ++ stem ++ [e.1])

namespace Node.Rooted

variable {L : Loader} {n : Nat} {path stem : Key} {nd : Node H}

theorem rooted (hnd : nd.Rooted L n path stem) : nd.toTree.Rooted L n path :=
  .node hnd.sound hnd.spells hnd.ne_nil hnd.below

/-- The keys of all records below a node follow its stem. -/
theorem stem_of_mem (hnd : nd.Rooted L n path stem) {r : Record}
    (hr : r ∈ nd.toTree.records) : path ++ stem <+: L.load r n := by
  obtain ⟨e, he, hre⟩ := (Tree.mem_records_node _ _).mp hr
  exact Key.prefix_of_append ((hnd.below e he).path_of_mem hre)

/-- The keys go on after the stem. -/
theorem length_lt (hnd : nd.Rooted L n path stem) : path.length + stem.length < n := by
  obtain ⟨e, he⟩ := List.exists_mem_of_ne_nil _ hnd.ne_nil
  have := (hnd.below e he).length_path_le
  simp only [List.length_append, List.length_singleton] at this
  omega

theorem stemLength_eq (hnd : nd.Rooted L n path stem) : nd.stemLength = stem.length :=
  hnd.spells.length.symm

end Node.Rooted

/-- What `Tree.Fits` says of an inner node whose stem is `stem`. -/
structure Node.Stands (L : Loader) (n : Nat) (path stem : Key) (nd : Node H) : Prop where
  sound : nd.Sound
  spells : nd.Spells stem
  two_le : 2 ≤ nd.children.length
  below : ∀ e ∈ nd.children, e.2.Fits L n (path ++ stem ++ [e.1])

theorem Tree.fits_node {L : Loader} {n : Nat} {path : Key} {h : H}
    {c : Fin (NodeHeader.width h) → Tree H} :
    (Tree.node h c).Fits L n path ↔ ∃ stem, (Node.mk h c).Stands L n path stem := by
  constructor
  · rintro (_ | ⟨hsound, hspells, htwo, hbelow⟩)
    exact ⟨_, hsound, hspells, htwo, hbelow⟩
  · rintro ⟨stem, hstands⟩
    exact .node hstands.sound hstands.spells hstands.two_le hstands.below

namespace Node.Stands

variable {L : Loader} {n : Nat} {path stem : Key} {nd : Node H}

theorem fits (hnd : nd.Stands L n path stem) : nd.toTree.Fits L n path :=
  Tree.fits_node.mpr ⟨stem, hnd⟩

theorem rooted (hnd : nd.Stands L n path stem) : nd.Rooted L n path stem where
  sound := hnd.sound
  spells := hnd.spells
  ne_nil := List.ne_nil_of_length_pos (Nat.lt_of_succ_lt hnd.two_le)
  below e he := (hnd.below e he).rooted

theorem stem_of_mem (hnd : nd.Stands L n path stem) {r : Record}
    (hr : r ∈ nd.toTree.records) : path ++ stem <+: L.load r n := hnd.rooted.stem_of_mem hr

theorem length_lt (hnd : nd.Stands L n path stem) : path.length + stem.length < n :=
  hnd.rooted.length_lt

theorem stemLength_eq (hnd : nd.Stands L n path stem) : nd.stemLength = stem.length :=
  hnd.spells.length.symm

end Node.Stands

end RadixIndex
