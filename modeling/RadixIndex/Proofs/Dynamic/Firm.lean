/-
# Firm trees

A dynamic tree is *firm* where it stands when it fits there and every node has the
least number of children that nodes of its size have.  Writes keep a tree firm.

What a dynamic node keeps of its stem is fixed by the stem, `Stem.of`, so cutting
stems and joining them is cutting and joining keys.
-/
import RadixIndex.Proofs.Below
import RadixIndex.Proofs.Dynamic.Children

namespace RadixIndex.Dynamic

/-! ## Stems of known bytes -/

namespace Stem

/-- The stem whose bytes are those of `key`. -/
def of (key : Key) : Stem where
  length := key.length
  inline := key.take inlineCapacity
  inline_length := by rw [List.length_take, Nat.min_comm]

theorem eq_of_iff {s : Stem} {key : Key} :
    s = of key ↔ s.inline <+: key ∧ key.length = s.length := by
  constructor
  · rintro rfl
    exact ⟨List.take_prefix _ _, rfl⟩
  · rintro ⟨hinline, hlength⟩
    obtain ⟨length, inline, hl⟩ := s
    obtain rfl : key.length = length := hlength
    have htake : inline = key.take inlineCapacity := by
      refine (List.prefix_iff_eq_take.mp hinline).trans ?_
      show key.take inline.length = _
      rw [hl, Nat.min_comm, ← List.take_eq_take_min]
    subst htake
    rfl

theorem make_ok {bytes : Key} {k : Nat} (h : k ≤ bytes.length) :
    make k bytes = .ok (of (bytes.take k)) := by
  rw [make, dif_pos (Nat.le_trans (Nat.min_le_left _ _) h)]
  refine congrArg Except.ok (eq_of_iff.mpr ⟨?_, ?_⟩)
  · exact List.take_prefix_take_left (Nat.min_le_left _ _)
  · exact List.length_take_of_le h

theorem take_of {key : Key} {k : Nat} (h : k ≤ key.length) : (of key).take k = of (key.take k) := by
  refine eq_of_iff.mpr ⟨?_, ?_⟩
  · show (key.take inlineCapacity).take (min k key.length) <+: key.take k
    rw [Nat.min_eq_left h, List.take_take]
    exact List.take_prefix_take_left (Nat.min_le_left _ _)
  · show (key.take k).length = min k key.length
    exact List.length_take

theorem join_of (s t : Key) (b : UInt8) : (of s).join b (of t) = of (s ++ b :: t) := by
  refine eq_of_iff.mpr ⟨?_, ?_⟩
  · show (s.take inlineCapacity ++ b :: t.take inlineCapacity).take inlineCapacity <+: _
    by_cases hs : s.length ≤ inlineCapacity
    · -- All of the first stem is kept, and a beginning of the second.
      rw [List.take_of_length_le hs]
      refine (List.take_prefix _ _).trans ?_
      exact (List.prefix_append_right_inj s).mpr
        (List.cons_prefix_cons.mpr ⟨rfl, List.take_prefix _ _⟩)
    · rw [List.take_append_of_le_length (by rw [List.length_take]; omega)]
      exact (List.take_prefix _ _).trans
        ((List.take_prefix _ _).trans (List.prefix_append _ _))
  · simp only [join, of, List.length_append, List.length_cons]
    omega

end Stem

variable {L : Loader} {n : Nat} {path stem : Key}

theorem Node.spells_iff {nd : Node} : nd.Spells stem ↔ nd.header.stem = Stem.of stem :=
  ⟨fun h => Stem.eq_of_iff.mpr ⟨h.kept, h.length⟩,
    fun h => ⟨(Stem.eq_of_iff.mp h).1, (Stem.eq_of_iff.mp h).2⟩⟩

/-! ## Firm trees -/

/-- The tree stands where `path` leads to, and its nodes have enough children. -/
structure Tree.Firm (L : Loader) (n : Nat) (path : Key) (t : Tree) : Prop where
  fits : t.Fits L n path
  sized : t.Each Node.Sized

theorem Tree.firm_leaf {r : Record} (h : path <+: L.load r n) : Tree.Firm L n path (.leaf r) :=
  ⟨.leaf h, RadixIndex.Tree.each_leaf r⟩

namespace Node

variable {nd nd' : Node} {b : UInt8} {t : Tree}

/-- What `Tree.Firm` says of an inner node whose stem is `stem`. -/
structure Firm (L : Loader) (n : Nat) (path stem : Key) (nd : Node) : Prop where
  stands : nd.Stands L n path stem
  sized : Sized nd
  below : ∀ e ∈ RadixIndex.Node.children nd, Tree.Firm L n (path ++ stem ++ [e.1]) e.2

theorem Firm.toTree (h : nd.Firm L n path stem) : Tree.Firm L n path nd.toTree :=
  ⟨h.stands.fits, (RadixIndex.Tree.each_node _ _).mpr ⟨h.sized, fun e he => (h.below e he).sized⟩⟩

theorem firm_of_children (hsound : nd.Sound) (hstem : nd.header.stem = Stem.of stem)
    (htwo : 2 ≤ nd.children.length) (hsized : Sized nd)
    (hbelow : ∀ e ∈ nd.children, Tree.Firm L n (path ++ stem ++ [e.1]) e.2) :
    nd.Firm L n path stem :=
  ⟨⟨hsound, spells_iff.mpr hstem, htwo, fun e he => (hbelow e he).fits⟩, hsized, hbelow⟩

end Node

theorem Tree.firm_node {h : Header} {c : Fin (NodeHeader.width h) → Tree}
    (hf : Tree.Firm L n path (.node h c)) :
    ∃ stem, h.stem = Stem.of stem ∧ Node.Firm L n path stem ⟨h, c⟩ := by
  obtain ⟨stem, hstands⟩ := RadixIndex.Tree.fits_node.mp hf.fits
  obtain ⟨hsized, hbelow⟩ := (RadixIndex.Tree.each_node h c).mp hf.sized
  exact ⟨stem, Node.spells_iff.mp hstands.spells, hstands, hsized,
    fun e he => ⟨hstands.below e he, hbelow e he⟩⟩

/-! ## Another stem -/

namespace Node

/-- A node with another stem in the place where that stem ends as the old one did. -/
theorem Firm.withStem {nd : Node} (hnd : nd.Firm L n path stem) {path' rest : Key}
    (h : path' ++ rest = path ++ stem) : (withStem nd (Stem.of rest)).Firm L n path' rest := by
  have hbelow := hnd.below
  rw [← h] at hbelow
  exact firm_of_children ⟨hnd.stands.sound.ordered, hnd.stands.sound.apart,
    hnd.stands.sound.occupied, hnd.stands.sound.count⟩ rfl hnd.stands.two_le hnd.sized hbelow

theorem recount_withStem (nd : Node) (s : Stem) :
    Tree.recount (withStem nd s).toTree = Tree.recount nd.toTree := by
  rw [RadixIndex.Node.toTree, Tree.recount_node, RadixIndex.Node.toTree, Tree.recount_node]
  rfl

theorem records_withStem (nd : Node) (s : Stem) :
    (withStem nd s).toTree.records = nd.toTree.records := by
  rw [RadixIndex.Node.toTree, RadixIndex.Tree.records_node, RadixIndex.Node.toTree,
    RadixIndex.Tree.records_node]
  rfl

theorem least?_withStem (nd : Node) (s : Stem) :
    (withStem nd s).toTree.least? = nd.toTree.least? := by
  rw [RadixIndex.Node.toTree, RadixIndex.Tree.least?_node, RadixIndex.Node.toTree,
    RadixIndex.Tree.least?_node]
  rfl

end Node

/-! ## Replacing one child -/

section SetChild

variable {nd : Node} {b : UInt8} {i : Fin (NodeHeader.width nd.header)} {t : Tree}

theorem Node.Firm.setChild (hnd : nd.Firm L n path stem) (hs : (b, i) ∈ nd.slots)
    (ht : t.Firm L n (path ++ stem ++ [b])) : Node.Firm L n path stem (nd.setChild i t) := by
  refine ⟨hnd.stands.setChild hs ht.fits, ?_, ?_⟩
  · rw [RadixIndex.Node.setChild_eq]
    exact hnd.sized
  · intro e he
    obtain ⟨pre, post, hold, hnew⟩ :=
      RadixIndex.Node.children_setChild hnd.stands.sound hs
    have hbelow := hnd.below e
    rw [hold] at hbelow
    rw [hnew t ht.fits.ne_empty] at he
    rcases List.mem_append.mp he with he | he
    · exact hbelow (List.mem_append_left _ he)
    · rcases List.mem_cons.mp he with rfl | he
      · exact ht
      · exact hbelow (List.mem_append_right _ (List.mem_cons_of_mem _ he))

/-- The counts of a node with another child differ by the counts of the child. -/
theorem Node.recount_setChild (hn : nd.Sound) (hs : (b, i) ∈ nd.slots) :
    ∃ others, Tree.recount nd.toTree = Tree.recount (nd.child i) + others ∧
      ∀ t, t ≠ .empty → Tree.recount (nd.setChild i t).toTree = Tree.recount t + others := by
  obtain ⟨pre, post, hold, hnew⟩ := RadixIndex.Node.children_setChild hn hs
  have hsum : ∀ (nd' : Node) (s : Tree), nd'.header = nd.header →
      RadixIndex.Node.children nd' = pre ++ (b, s) :: post →
        Tree.recount nd'.toTree = Tree.recount s + (Stats.one nd.header.layout.size +
          ((pre ++ post).map fun e => Tree.recount e.2).sum) := by
    intro nd' s hh hl
    rw [RadixIndex.Node.toTree, Tree.recount_node, hl, hh]
    simp only [List.map_append, List.map_cons, List.sum_append, List.sum_cons]
    ac_rfl
  exact ⟨_, hsum nd _ rfl hold,
    fun t ht => hsum _ t (by rw [RadixIndex.Node.setChild_eq]) (hnew t ht)⟩

/-- The counts of a node and any others are those of one child with the counts of the rest
among the others, and they stay so when the child is replaced. -/
theorem Tree.recount_below {h : Header} {c : Fin (NodeHeader.width h) → Tree}
    {i : Fin (NodeHeader.width h)} (hn : (RadixIndex.Node.mk h c).Sound)
    (hs : (b, i) ∈ (RadixIndex.Node.mk h c).slots) :
    ∃ rest, (∀ s, recount (.node h c) + s = recount (c i) + (rest + s)) ∧
      ∀ t, t ≠ .empty → ∀ s, recount ((RadixIndex.Node.mk h c).setChild i t).toTree + s =
        recount t + (rest + s) := by
  obtain ⟨rest, hold, hnew⟩ := Node.recount_setChild hn hs
  have hold : recount (.node h c) = recount (c i) + rest := hold
  refine ⟨rest, fun s => ?_, fun t ht s => ?_⟩
  · rw [hold, add_assoc]
  · rw [hnew t ht, add_assoc]

end SetChild

/-! ## Children in another order -/

theorem Node.recount_of_perm {nd : Node} {l : List (UInt8 × Tree)}
    (h : (RadixIndex.Node.children nd).Perm l) : Tree.recount nd.toTree =
      Stats.one (size nd) + (l.map fun e => Tree.recount e.2).sum := by
  rw [RadixIndex.Node.toTree, Tree.recount_node]
  exact congrArg _ (h.map _).sum_eq

end RadixIndex.Dynamic
