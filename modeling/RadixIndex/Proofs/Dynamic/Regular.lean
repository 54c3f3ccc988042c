/-
# What writes keep

The shape of a dynamic tree, said of its nodes one by one (`Node.Regular`): a node has a
number of children that its size allows, under ascending bytes; its stem is the longest
common beginning of what the keys below it go on with, of which the first bytes are kept;
and the keys below a child go on with its byte.  Beside its nodes a tree keeps counters,
which count its leaves and its nodes (`Regular`).

Freezing takes everything out of a tree.  From the empty tree on, whatever is written and
frozen out in whatever order, no operation stops with a fault, and every tree on the way
is regular, so the verifier never finds anything (`regular_always`).
-/
import RadixIndex.Proofs.Beginning
import RadixIndex.Proofs.Dynamic.Integrity
import RadixIndex.Proofs.Static.Refines

namespace RadixIndex

namespace Dynamic

/-! ## Regular nodes -/

/-- The node is as it should be, when its stem begins at the offset `depth`. -/
structure Node.Regular (L : Loader) (n depth : Nat) (nd : Node) : Prop where
  /-- The size of the node allows for so many children. -/
  fanOut : (size nd).fanOut.1 ≤ nd.children.length ∧ nd.children.length ≤ (size nd).fanOut.2
  /-- The children listed are something, and there is nothing else in the slots. -/
  filled : ∀ e ∈ nd.children, e.2 ≠ .empty
  occupied : (List.ofFn nd.child).countP (fun t => !t.isEmpty) = nd.children.length
  count_eq : nd.count = nd.children.length
  ascending : (nd.children.map Prod.fst).Pairwise (· < ·)
  /-- The stem is the longest common beginning, and its first bytes are kept. -/
  stem : ∃ stem : Key,
    stem.LongestBeginning (nd.toTree.records.map fun r => (L.load r n).drop depth) ∧
      nd.stemLength = stem.length ∧ nd.stemBytes = stem.take inlineCapacity
  /-- After the stem, the keys below a child go on with its byte. -/
  branch : ∀ e ∈ nd.children, ∀ r ∈ e.2.records,
    (L.load r n)[depth + nd.stemLength]? = some e.1

theorem Size.fanOut_snd (size : Size) : size.fanOut.2 = size.capacity := by
  cases size <;> rfl

/-- A node that stands in its place and has enough children is regular. -/
theorem Node.Sized.regular {L : Loader} {n : Nat} {path stem : Key} {nd : Node}
    (hsized : Sized nd) (hnd : nd.Stands L n path stem) : Node.Regular L n path.length nd where
  fanOut := by
    rw [← hnd.sound.count_eq_length, Size.fanOut_snd]
    exact ⟨hsized, count_le_capacity hnd.sound⟩
  filled _ he := hnd.sound.child_ne_empty he
  occupied := hnd.sound.countP_filled.trans hnd.sound.count_eq_length
  count_eq := hnd.sound.count_eq_length
  ascending := List.pairwise_map.mpr hnd.sound.children_ordered
  stem := ⟨stem, hnd.longest, hnd.stemLength_eq,
    congrArg (fun h : Stem => h.inline) (Node.spells_iff.mp hnd.spells)⟩
  branch e he r hr := by
    have hbyte := Key.getElem?_of_path ((hnd.below e he).path_of_mem hr)
    rw [List.length_append, ← hnd.stemLength_eq] at hbyte
    exact hbyte

end Dynamic

namespace DynamicTree

/-! ## Regular trees -/

/-- The nodes of the tree are as they should be, and so are its counters. -/
structure Regular (L : Loader) (n : Nat) (t : DynamicTree) : Prop where
  keyLength_eq : t.keyLength = n
  nodes : ∀ x ∈ t.root.placed 0, Dynamic.Node.Regular L n x.1 x.2
  size_eq : t.size = t.root.leafCount
  /-- The tree counts its nodes by size, and the memory of all of them. -/
  stats_eq : ∀ size : Dynamic.Size,
    t.stats.ofSize size = t.root.nodes.countP fun nd => decide (Dynamic.Node.size nd = size)
  memory_eq : t.stats.memory = (t.root.nodes.map fun nd => (Dynamic.Node.size nd).footprint).sum

end DynamicTree

namespace Dynamic

theorem Stats.ofSize_sum (ns : List Node) (size : Size) :
    (ns.map fun nd => Stats.one (Node.size nd)).sum.ofSize size =
      ns.countP fun nd => decide (Node.size nd = size) := by
  induction ns with
  | nil => exact Stats.ofSize_zero size
  | cons nd ns ih =>
      rw [List.map_cons, List.sum_cons, Stats.ofSize_add, Stats.ofSize_one, ih, List.countP_cons,
        Nat.add_comm]
      by_cases hsize : Node.size nd = size
      · simp [hsize]
      · simp [hsize, Ne.symm hsize]

theorem Stats.memory_sum (ns : List Node) :
    (ns.map fun nd => Stats.one (Node.size nd)).sum.memory =
      (ns.map fun nd => (Node.size nd).footprint).sum := by
  induction ns with
  | nil => rfl
  | cons nd ns ih =>
      rw [List.map_cons, List.sum_cons, Stats.memory_add, Stats.memory_one, ih, List.map_cons,
        List.sum_cons]

end Dynamic

namespace DynamicTree

variable {L : Loader} {n : Nat} {t : DynamicTree} {m : Contents}

theorem Refines.regular (h : t.Refines L n m) : t.Regular L n where
  keyLength_eq := h.keyLength_eq
  nodes := by
    rintro ⟨depth, nd⟩ hx
    rcases h.root with hroot | hroot
    · rw [hroot] at hx
      exact absurd hx List.not_mem_nil
    · obtain ⟨path, stem, hdepth, hnd⟩ := hroot.fits.stands_of_mem_placed hx
      obtain rfl : depth = path.length := hdepth
      have hmem := List.mem_map_of_mem (f := Prod.snd) hx
      rw [RadixIndex.Tree.map_snd_placed] at hmem
      exact (hroot.sized nd hmem).regular hnd
  size_eq := h.leafCount_eq.symm
  stats_eq size := by
    rw [h.stats_eq, Dynamic.Tree.recount_eq]
    exact Dynamic.Stats.ofSize_sum _ size
  memory_eq := by
    rw [h.stats_eq, Dynamic.Tree.recount_eq]
    exact Dynamic.Stats.memory_sum _

/-! ## Writing and freezing out -/

/-- What can be done to a dynamic tree. -/
inductive Act where
  | write (w : Write)
  | freeze (p : Static.ShapePolicy)

/-- A write is about a key of `n` bytes, which is the key of the record written. -/
def Act.Proper (L : Loader) (n : Nat) : Act → Prop
  | .write w => w.Proper L n
  | .freeze _ => True

instance (L : Loader) (n : Nat) (a : Act) : Decidable (a.Proper L n) :=
  match a with
  | .write w => inferInstanceAs (Decidable (w.Proper L n))
  | .freeze _ => inferInstanceAs (Decidable True)

/-- Something done to a tree, and the tree that is left. -/
def act (L : Loader) (t : DynamicTree) : Act → Except Fault (Option Bool × DynamicTree)
  | .write w => t.write L w
  | .freeze p => do
      let (_, rest) ← t.freeze L p
      return (none, rest)

/-- Something done to a finite map: freezing takes everything out. -/
def Act.onContents (m : Contents) : Act → Option Bool × Contents
  | .write w => w.onContents m
  | .freeze _ => (none, ∅)

theorem act_simulates (L : Loader) (n : Nat) :
    StepSimulates (Refines L n) (act L) Act.onContents (Act.Proper L n) := by
  intro t m a h ha
  cases a with
  | write w => exact write_simulates L n t m w h ha
  | freeze p =>
      -- What is frozen goes its own way; the tree begins again.
      obtain ⟨f, hfreeze, -⟩ := StaticTree.freeze_ok h p
      refine ⟨.empty n, ?_, refines_empty L n⟩
      rw [act, hfreeze]
      rfl

/-- What is left of a tree that there can be is one that there can be. -/
theorem Reachable.act {t' : DynamicTree} {a : Act} {answer : Option Bool} (h : t.Reachable L n)
    (ha : a.Proper L n) (heq : t.act L a = .ok (answer, t')) : t'.Reachable L n := by
  cases a with
  | write w => exact .write h ha heq
  | freeze p =>
      obtain ⟨m, hm⟩ := h.refines
      obtain ⟨f, hfreeze, -⟩ := StaticTree.freeze_ok hm p
      rw [DynamicTree.act, hfreeze] at heq
      obtain ⟨-, rfl⟩ := Prod.mk.inj (Except.ok.inj heq)
      exact .empty

/-- From the empty tree on, any sequence of writes and freezes runs without a fault; at
the beginning and after each of them the tree is regular, and the verifier finds nothing
wrong with it. -/
theorem regular_always (L : Loader) {n : Nat} (hn : n < 2 ^ 32) (acts : List Act)
    (hacts : ∀ a ∈ acts, a.Proper L n) :
    ∃ states, run (act L) (empty n) acts = .ok states ∧
      ∀ t ∈ empty n :: states.map Prod.snd, t.Regular L n ∧ t.verifyWith L = .ok [] := by
  have hroom : n ≤ Key.maxLength := by
    rw [Key.maxLength]
    omega
  have hgood : ∀ {t : DynamicTree} {m : Contents}, t.Refines L n m →
      t.Regular L n ∧ t.verifyWith L = .ok [] := fun h => ⟨h.regular, h.verifyWith_eq hroom⟩
  obtain ⟨states, hrun, hall⟩ := run_simulates (act_simulates L n) (refines_empty L n) hacts
  refine ⟨states, hrun, ?_⟩
  intro t ht
  rcases List.mem_cons.mp ht with rfl | ht
  · exact hgood (refines_empty L n)
  · obtain ⟨state, hstate, rfl⟩ := List.mem_map.mp ht
    obtain ⟨_, -, -, h⟩ := exists_of_forall₂ hall.flip hstate
    exact hgood h

/-- Writes that split stems and fold nodes again, and a freeze between them. -/
theorem regular_always_of_two_bytes :
    let L := Loader.modulo 65536
    let acts : List Act :=
      [.write (.insert [0, 1] 1), .write (.insert [0, 2] 2), .write (.insert [1, 0] 256),
        .write (.erase [0, 2]), .freeze {}, .write (.upsert [0, 1] 65537)]
    ∃ states, run (act L) (empty 2) acts = .ok states ∧
      ∀ t ∈ empty 2 :: states.map Prod.snd, t.Regular L 2 ∧ t.verifyWith L = .ok [] :=
  regular_always (.modulo 65536) (by decide) _ (by decide)

end DynamicTree

end RadixIndex
