/-
# The longest common beginning

The stem of a node that stands in its place is not just a common beginning of what the
keys below it go on with, but the longest one there is (`Node.Stands.longest`): the node has
two children, and their bytes differ.  So the stem is known by the records alone, and
with it the branch bytes and the records of each child (`Node.Stands.exists_child`).

To speak of all nodes of a tree with the places where their stems begin, they are listed
with their offsets (`Tree.placed`).
-/
import RadixIndex.Proofs.Below

namespace RadixIndex

/-! ## Keys -/

namespace Key

/-- The beginnings that all the keys have in common are those of `p`. -/
def LongestBeginning (p : Key) (keys : List Key) : Prop :=
  ∀ q : Key, q <+: p ↔ ∀ k ∈ keys, q <+: k

variable {p p' : Key} {keys keys' : List Key}

/-- There is one longest beginning, whatever the order of the keys. -/
theorem LongestBeginning.unique (h : p.LongestBeginning keys) (h' : p'.LongestBeginning keys')
    (hsame : ∀ k, k ∈ keys ↔ k ∈ keys') : p = p' := by
  have hp : p <+: p' := by
    refine (h' p).mpr ?_
    intro k hk
    exact (h p).mp (List.prefix_refl p) k ((hsame k).mpr hk)
  have hp' : p' <+: p := by
    refine (h p').mpr ?_
    intro k hk
    exact (h' p').mp (List.prefix_refl p') k ((hsame k).mp hk)
  exact hp.eq_of_length_le hp'.length_le

/-- Where two keys go on with different bytes, no longer beginning is common to them. -/
theorem prefix_of_fork {q stem key key' : Key} {a b : UInt8} (hab : a ≠ b)
    (ha : stem ++ [a] <+: key) (hb : stem ++ [b] <+: key') (hq : q <+: key) (hq' : q <+: key') :
    q <+: stem := by
  -- A beginning that reaches beyond the fork goes on with both bytes.
  rcases List.prefix_or_prefix_of_prefix hq ha with hle | hle
  · rcases List.prefix_concat_iff.mp hle with rfl | hle
    · exact absurd (byte_unique hq' hb) hab
    · exact hle
  · exact absurd (byte_unique (hle.trans hq') hb) hab

end Key

/-! ## Single nodes -/

namespace Node.Stands

variable {H : Type} [NodeHeader H] {L : Loader} {n : Nat} {path stem stem' : Key} {nd nd' : Node H}

/-- There are two children, under different bytes. -/
theorem exists_two (hnd : nd.Stands L n path stem) :
    ∃ e ∈ nd.children, ∃ e' ∈ nd.children, e.1 ≠ e'.1 := by
  have htwo := hnd.two_le
  have hord := hnd.sound.children_ordered
  cases hl : nd.children with
  | nil => simp [hl] at htwo
  | cons e rest =>
      cases rest with
      | nil => simp [hl] at htwo
      | cons e' rest =>
          rw [hl] at hord
          have hlt := (List.pairwise_cons.mp hord).1 e' List.mem_cons_self
          exact ⟨e, List.mem_cons_self, e', List.mem_cons_of_mem _ List.mem_cons_self,
            UInt8.ne_of_lt hlt⟩

/-- The keys below a child go on after the path with the stem and the byte of the child. -/
theorem byte_of_mem (hnd : nd.Stands L n path stem) {e : UInt8 × Tree H} (he : e ∈ nd.children)
    {r : Record} (hr : r ∈ e.2.records) : stem ++ [e.1] <+: (L.load r n).drop path.length := by
  have hpath := (hnd.below e he).path_of_mem hr
  rw [List.append_assoc] at hpath
  exact (Key.append_prefix_iff (Key.prefix_of_append hpath)).mp hpath

/-- The stem is the longest common beginning of what the keys go on with. -/
theorem longest (hnd : nd.Stands L n path stem) :
    stem.LongestBeginning (nd.toTree.records.map fun r => (L.load r n).drop path.length) := by
  intro q
  rw [List.forall_mem_map]
  constructor
  · intro hq r hr
    have hstem := hnd.stem_of_mem hr
    exact hq.trans ((Key.append_prefix_iff (Key.prefix_of_append hstem)).mp hstem)
  · intro hall
    obtain ⟨e, he, e', he', hne⟩ := hnd.exists_two
    obtain ⟨r, hr⟩ := (hnd.below e he).exists_mem
    obtain ⟨r', hr'⟩ := (hnd.below e' he').exists_mem
    have hq := hall r ((Tree.mem_records_node _ _).mpr ⟨e, he, hr⟩)
    have hq' := hall r' ((Tree.mem_records_node _ _).mpr ⟨e', he', hr'⟩)
    exact Key.prefix_of_fork hne (hnd.byte_of_mem he hr) (hnd.byte_of_mem he' hr') hq hq'

/-- A node has at least two records. -/
theorem not_single (hnd : nd.Stands L n path stem) (r : Record) :
    ∃ r' ∈ nd.toTree.records, r' ≠ r := by
  obtain ⟨e, he, e', he', hne⟩ := hnd.exists_two
  obtain ⟨x, hx⟩ := (hnd.below e he).exists_mem
  obtain ⟨x', hx'⟩ := (hnd.below e' he').exists_mem
  -- No record is below both children, so one of the two is another one.
  by_cases hr : x = r
  · refine ⟨x', (Tree.mem_records_node _ _).mpr ⟨e', he', hx'⟩, ?_⟩
    rintro rfl
    exact hne (Key.byte_unique (hnd.byte_of_mem he (hr ▸ hx)) (hnd.byte_of_mem he' hx'))
  · exact ⟨x, (Tree.mem_records_node _ _).mpr ⟨e, he, hx⟩, hr⟩

/-- Nodes with the same records in the same place have the same stem. -/
theorem stem_unique (hnd : nd.Stands L n path stem) (hnd' : nd'.Stands L n path stem')
    (hsame : ∀ r, r ∈ nd.toTree.records ↔ r ∈ nd'.toTree.records) : stem = stem' := by
  refine hnd.longest.unique hnd'.longest ?_
  intro k
  simp only [List.mem_map, hsame]

/-- Nodes with the same records and the same stem have children under the same bytes, with
the same records. -/
theorem exists_child (hnd : nd.Stands L n path stem) (hnd' : nd'.Stands L n path stem)
    (hsame : ∀ r, r ∈ nd.toTree.records ↔ r ∈ nd'.toTree.records) {e : UInt8 × Tree H}
    (he : e ∈ nd.children) :
    ∃ t, (e.1, t) ∈ nd'.children ∧ ∀ r, r ∈ e.2.records ↔ r ∈ t.records := by
  obtain ⟨x, hx⟩ := (hnd.below e he).exists_mem
  have hmem : x ∈ nd'.toTree.records := (hsame x).mp ((Tree.mem_records_node _ _).mpr ⟨e, he, hx⟩)
  obtain ⟨e', he', hx'⟩ := (Tree.mem_records_node _ _).mp hmem
  obtain ⟨b, t⟩ := e'
  obtain rfl : b = e.1 :=
    hnd'.byte_eq he' hx' ((hnd.below e he).path_of_mem hx)
  refine ⟨t, he', ?_⟩
  intro r
  constructor
  · intro hr
    have hpath := (hnd.below e he).path_of_mem hr
    exact (hnd'.mem_below he' hpath).mp ((hsame r).mp ((hnd.mem_below he hpath).mpr hr))
  · intro hr
    have hpath := (hnd'.below _ he').path_of_mem hr
    exact (hnd.mem_below he hpath).mp ((hsame r).mpr ((hnd'.mem_below he' hpath).mpr hr))

end Node.Stands

/-! ## All nodes of a tree -/

section Placed

variable {H : Type} [NodeHeader H] {L : Loader} {n : Nat} {path : Key}

/-- The nodes of a tree, each with the offset in the keys where its stem begins, when the
tree stands at the offset `depth`. -/
def Tree.placed : Tree H → (depth : Nat) → List (Nat × Node H)
  | .empty, _ => []
  | .leaf _, _ => []
  | .node h c, depth =>
      (depth, ⟨h, c⟩) :: (NodeHeader.slots h fun i => !(c i).isEmpty).flatMap fun s =>
        (c s.2).placed (depth + NodeHeader.stemLength h + 1)

theorem Tree.map_snd_placed (t : Tree H) (depth : Nat) :
    (t.placed depth).map Prod.snd = t.nodes := by
  induction t generalizing depth with
  | empty => rfl
  | leaf r => rfl
  | node h c ih =>
      rw [placed, nodes, List.map_cons, List.map_flatMap]
      simp only [ih]

theorem Tree.placed_node (h : H) (c : Fin (NodeHeader.width h) → Tree H) (depth : Nat) :
    (Tree.node h c).placed depth = (depth, ⟨h, c⟩) :: (Node.mk h c).children.flatMap fun e =>
      e.2.placed (depth + NodeHeader.stemLength h + 1) := by
  rw [placed, Node.children, List.flatMap_map]
  rfl

/-- The nodes of a tree that fits its place stand where their stems begin. -/
theorem Tree.Fits.stands_of_mem_placed {t : Tree H} (ht : t.Fits L n path) {x : Nat × Node H}
    (hx : x ∈ t.placed path.length) :
    ∃ path stem, x.1 = path.length ∧ x.2.Stands L n path stem := by
  induction ht with
  | leaf _ => exact absurd hx List.not_mem_nil
  | @node path stem h c hsound hspells htwo hbelow ih =>
      have hnd : (Node.mk h c).Stands L n path stem := ⟨hsound, hspells, htwo, hbelow⟩
      rw [Tree.placed_node] at hx
      rcases List.mem_cons.mp hx with rfl | hx
      · exact ⟨path, stem, rfl, hnd⟩
      · obtain ⟨e, he, hx⟩ := List.mem_flatMap.mp hx
        refine ih e he ?_
        rw [Key.length_below, ← hnd.stemLength_eq]
        exact hx

end Placed

end RadixIndex
