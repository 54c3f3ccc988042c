/-
# The shapes of static nodes

What a canonical tree is made of, said of its nodes one by one (`Node.Shaped`): a node has
two children at least, and its shape goes by their number, by whether any of them is a leaf,
and by whether there is a stem; it counts the children that it has; and its stem is the
longest common beginning of what the keys below it go on with.  The tree counts its nodes by
shape, and the memory of all of them (`StaticTree.Shaped`).

Nothing of this depends on how the tree was made.
-/
import RadixIndex.Proofs.Dynamic.Integrity
import RadixIndex.Proofs.Static.Canonical

namespace RadixIndex

namespace Static

/-- The shapes of static nodes. -/
inductive Shape where
  | dense | denseStem | full | fullStem | loose
  deriving DecidableEq

/-- The shape of a node. -/
def Header.shape : Header → Shape
  | .dense _ => .dense
  | .denseStem .. => .denseStem
  | .full _ => .full
  | .fullStem .. => .fullStem
  | .loose .. => .loose

/-- The number of nodes of a shape; loose nodes are not counted. -/
def Stats.ofShape (s : Stats) : Shape → Nat
  | .dense => s.dense
  | .denseStem => s.denseStem
  | .full => s.full
  | .fullStem => s.fullStem
  | .loose => 0

/-! ## Shaped nodes -/

/-- The node is to be full: it has more children than the threshold, or none of its children
is a leaf. -/
def Node.Wide (p : ShapePolicy) (nd : Node) : Prop :=
  p.denseThreshold < nd.children.length ∨ ∀ e ∈ nd.children, e.2.isLeaf = false

/-- The node is as it should be under the policy, when its stem begins at the offset
`depth`. -/
structure Node.Shaped (p : ShapePolicy) (L : Loader) (n depth : Nat) (nd : Node) : Prop where
  two_le : 2 ≤ nd.children.length
  /-- The shape goes by the children. -/
  not_loose : nd.header.shape ≠ .loose
  full_iff : nd.header.shape = .full ∨ nd.header.shape = .fullStem ↔ Node.Wide p nd
  dense_iff : nd.header.shape = .dense ∨ nd.header.shape = .denseStem ↔ ¬ Node.Wide p nd
  stem_iff : nd.header.shape = .denseStem ∨ nd.header.shape = .fullStem ↔ nd.header.stem ≠ []
  /-- The children listed are something, and there is nothing else in the slots. -/
  filled : ∀ e ∈ nd.children, e.2 ≠ .empty
  count_eq : nd.count = nd.children.length
  occupied : (List.ofFn nd.child).countP (fun t => !t.isEmpty) = nd.count
  /-- The stem is the longest common beginning. -/
  stem : nd.header.stem.LongestBeginning
    (nd.toTree.records.map fun r => (L.load r n).drop depth)

theorem Node.wide_iff {p : ShapePolicy} {nd : Node} : Node.Wide p nd ↔
    p.wantsFull (Loose.ofNode nd).keys.length (Loose.ofNode nd).isInner = true := by
  simp [Node.Wide, ShapePolicy.wantsFull, Loose.length_keys, Loose.isInner, Loose.ofNode]

/-- Packing chooses the shape by the children and the stem. -/
theorem Loose.shape_pack (l : Loose) (p : ShapePolicy) : (l.pack p).header.shape =
    if p.wantsFull l.keys.length l.isInner then
      if l.stem.isEmpty then .full else .fullStem
    else if l.stem.isEmpty then .dense else .denseStem := by
  rw [pack]
  split <;> split <;> rw [RadixIndex.Node.build_eq] <;> rfl

/-- The four shapes of canonical nodes. -/
theorem Node.Canonical.shape_cases {p : ShapePolicy} {nd : Node} (hnd : Node.Canonical p nd) :
    (Node.Wide p nd ∧ nd.header.stem = [] ∧ nd.header.shape = .full) ∨
      (Node.Wide p nd ∧ nd.header.stem ≠ [] ∧ nd.header.shape = .fullStem) ∨
        (¬ Node.Wide p nd ∧ nd.header.stem = [] ∧ nd.header.shape = .dense) ∨
          (¬ Node.Wide p nd ∧ nd.header.stem ≠ [] ∧ nd.header.shape = .denseStem) := by
  have hshape := Loose.shape_pack (Loose.ofNode nd) p
  rw [hnd] at hshape
  have hstem : (Loose.ofNode nd).stem = nd.header.stem := rfl
  rw [hshape, Node.wide_iff, hstem]
  by_cases hwide : p.wantsFull (Loose.ofNode nd).keys.length (Loose.ofNode nd).isInner = true
  · by_cases hempty : nd.header.stem = [] <;> simp [hwide, hempty]
  · by_cases hempty : nd.header.stem = [] <;> simp [hwide, hempty]

/-- A canonical node that stands in its place is shaped. -/
theorem Node.Canonical.shaped {p : ShapePolicy} {L : Loader} {n : Nat} {path : Key} {nd : Node}
    (hcanonical : Node.Canonical p nd) (hnd : nd.Stands L n path nd.header.stem) :
    Node.Shaped p L n path.length nd := by
  have hshape : nd.header.shape ≠ .loose ∧
      (nd.header.shape = .full ∨ nd.header.shape = .fullStem ↔ Node.Wide p nd) ∧
        (nd.header.shape = .dense ∨ nd.header.shape = .denseStem ↔ ¬ Node.Wide p nd) ∧
          (nd.header.shape = .denseStem ∨ nd.header.shape = .fullStem ↔ nd.header.stem ≠ []) := by
    rcases hcanonical.shape_cases with ⟨hwide, hstem, hshape⟩ | ⟨hwide, hstem, hshape⟩ |
      ⟨hwide, hstem, hshape⟩ | ⟨hwide, hstem, hshape⟩ <;> simp [hwide, hstem, hshape]
  obtain ⟨hloose, hfull, hdense, hstem⟩ := hshape
  exact ⟨hnd.two_le, hloose, hfull, hdense, hstem, fun e he => hnd.sound.child_ne_empty he,
    hnd.sound.count_eq_length, hnd.sound.countP_filled, hnd.longest⟩

/-! ## Counters -/

/-- One more node is counted under its shape, with its memory. -/
theorem Stats.ofShape_add (s : Stats) (h : Header) {shape : Shape} (hloose : shape ≠ .loose) :
    (s.add h).ofShape shape = s.ofShape shape + if h.shape = shape then 1 else 0 := by
  cases shape with
  | loose => exact absurd rfl hloose
  | _ => cases h <;> rfl

theorem Stats.memory_add (s : Stats) (h : Header) : (s.add h).memory = s.memory + h.footprint := by
  cases h <;> rfl

theorem Stats.foldl_add (ns : List Node) (s : Stats) :
    (∀ shape : Shape, shape ≠ .loose →
      (ns.foldl (fun s n => s.add n.header) s).ofShape shape =
        s.ofShape shape + ns.countP fun nd => decide (nd.header.shape = shape)) ∧
    (ns.foldl (fun s n => s.add n.header) s).memory =
      s.memory + (ns.map fun nd => nd.header.footprint).sum := by
  induction ns generalizing s with
  | nil => exact ⟨fun _ _ => rfl, rfl⟩
  | cons nd ns ih =>
      obtain ⟨hshape, hmemory⟩ := ih (s.add nd.header)
      constructor
      · intro shape hloose
        rw [List.foldl_cons, hshape shape hloose, Stats.ofShape_add s _ hloose, List.countP_cons]
        simp only [decide_eq_true_eq]
        omega
      · rw [List.foldl_cons, hmemory, Stats.memory_add, List.map_cons, List.sum_cons]
        omega

end Static

/-! ## Shaped trees -/

open Static

/-- The nodes of the tree are as they should be under the policy, and so are its counters. -/
structure StaticTree.Shaped (p : ShapePolicy) (L : Loader) (n : Nat) (t : StaticTree) : Prop where
  nodes : ∀ x ∈ t.root.placed 0, Static.Node.Shaped p L n x.1 x.2
  stats_eq : ∀ shape : Shape, shape ≠ .loose →
    t.stats.ofShape shape = t.root.nodes.countP fun nd => decide (nd.header.shape = shape)
  memory_eq : t.stats.memory = (t.root.nodes.map fun nd => nd.header.footprint).sum

theorem StaticTree.CanonicallyHolds.shaped {p : ShapePolicy} {L : Loader} {n : Nat}
    {t : StaticTree} {m : Contents} (h : t.CanonicallyHolds L n p m) : t.Shaped p L n := by
  have hstats : t.stats = t.root.recount := congrArg StaticTree.stats h.eq_ofRoot
  obtain ⟨hshape, hmemory⟩ := Stats.foldl_add t.root.nodes {}
  refine ⟨?_, ?_, ?_⟩
  · rintro ⟨depth, nd⟩ hx
    rcases h.root with hroot | hroot
    · rw [hroot] at hx
      exact absurd hx List.not_mem_nil
    · obtain ⟨path, stem, hdepth, hnd⟩ := hroot.fits.stands_of_mem_placed hx
      obtain rfl : depth = path.length := hdepth
      obtain rfl : nd.header.stem = stem := Static.Node.spells_iff.mp hnd.spells
      have hmem := List.mem_map_of_mem (f := Prod.snd) hx
      rw [RadixIndex.Tree.map_snd_placed] at hmem
      exact (hroot.each nd hmem).shaped hnd
  · intro shape hloose
    rw [hstats, Tree.recount, hshape shape hloose]
    cases shape <;> exact Nat.zero_add _
  · rw [hstats, Tree.recount, hmemory]
    exact Nat.zero_add _

end RadixIndex
