/-
# Forks

A new node of four with two children comes about where a key leaves a leaf or a stem: below it
are what was there before and a leaf with the new record (`ForksTo`).  The children are in the
order of their bytes, whatever they are and whatever the counts.

The new node has the stem as far as the key follows it.  The node below goes on with what comes
after the branch byte.  For this nothing is asked of the node but that it carries its stem
(`Carries`): that its header has the length and the beginning of the stem, and the smallest leaf
has the rest in its key.  So the same holds of nodes that no writes make.
-/
import RadixIndex.Dynamic.Write
import RadixIndex.Proofs.Dynamic.Firm
import RadixIndex.Proofs.Stem

namespace RadixIndex.Dynamic.Node

variable {L : Loader} {n depth : Nat} {path stem key : Key}

/-- A node of four with room takes another child and stays a node of four. -/
theorem addChild_four (s : Stem) (keys : Vector UInt8 4) {used : Fin 5} (child : Fin 4 → Tree)
    (h : used.val < 4) (b : UInt8) (t : Tree) (stats : Stats) :
    addChild ⟨⟨s, .four keys used⟩, child⟩ b t stats =
      .ok (⟨⟨s, .four (insertKey keys (Keyed.place keys.get used b) used b)
          ⟨used.val + 1, Nat.succ_lt_succ h⟩⟩,
        shiftIn child (Keyed.place keys.get used b) used t⟩, stats) := by
  have hroom : ¬ isFull (⟨⟨s, .four keys used⟩, child⟩ : Node) = true := by
    have hcount : used.val < 4 := h
    exact fun hfull => absurd (of_decide_eq_true hfull) (Nat.not_le.mpr hcount)
  rw [addChild, if_neg hroom, place, dif_pos h]
  exact congrArg (fun nd => Except.ok (nd, stats)) (RadixIndex.Node.build_eq _ _)

/-- A second child comes before the first one if its byte is smaller. -/
theorem children_second (s : Stem) (keys : Vector UInt8 4) (child : Fin 4 → Tree) (b : UInt8)
    (u : Tree) : RadixIndex.Node.children
      (⟨⟨s, .four (insertKey keys (Keyed.place keys.get 1 b) 1 b) 2⟩,
        shiftIn child (Keyed.place keys.get 1 b) 1 u⟩ : Node) =
      if b < keys.get 0 then [(b, u), (keys.get 0, child (0 : Fin 4))]
      else [(keys.get 0, child (0 : Fin 4)), (b, u)] := by
  have hplace : Keyed.place keys.get 1 b = if b < keys.get 0 then 0 else 1 := by
    have hone : inUse 4 1 = [0] := rfl
    rw [Keyed.place, hone, List.find?_singleton]
    by_cases h : b < keys.get 0
    · rw [if_pos h, if_pos (decide_eq_true h)]
      rfl
    · rw [if_neg h, if_neg (by simpa using h)]
  rw [hplace]
  by_cases h : b < keys.get 0
  · rw [if_pos h, if_pos h]
    rfl
  · rw [if_neg h, if_neg h]
    rfl

/-- The node `nd` is new, with a tree under each of two bytes, which were put in one after the
other by way of the node `first`. -/
structure ForksTo (stem : Stem) (a b : UInt8) (t u : Tree) (first nd : Node) : Prop where
  addFirst : ∀ s, addChild (new stem) a t s = .ok (first, s)
  addSecond : ∀ s, addChild first b u s = .ok (nd, s)
  size_eq : size nd = .four
  stem_eq : nd.header.stem = stem
  children_eq : RadixIndex.Node.children nd =
    if b < a then [(b, u), (a, t)] else [(a, t), (b, u)]

/-- A new node takes two children, whatever their bytes. -/
theorem exists_fork (stem : Stem) (a b : UInt8) (t u : Tree) :
    ∃ first nd, ForksTo stem a b t u first nd := by
  have hnone : (0 : Fin 5).val < 4 := by decide
  have hone : (1 : Fin 5).val < 4 := by decide
  obtain ⟨keys, child, hkey, hchild, hfirst⟩ : ∃ (keys : Vector UInt8 4) (child : Fin 4 → Tree),
      keys.get 0 = a ∧ child 0 = t ∧
        ∀ s, addChild (new stem) a t s = .ok (⟨⟨stem, .four keys 1⟩, child⟩, s) := by
    rw [new_eq]
    exact ⟨_, _, rfl, rfl, addChild_four stem (Vector.replicate 4 0) (fun _ => .empty) hnone a t⟩
  refine ⟨_, _, hfirst, addChild_four stem keys child hone b u, rfl, rfl, ?_⟩
  rw [← hkey, ← hchild]
  exact children_second stem keys child b u

namespace ForksTo

variable {s : Stem} {a b : UInt8} {t u : Tree} {first nd : Node} (h : ForksTo s a b t u first nd)

include h

theorem perm : (RadixIndex.Node.children nd).Perm [(b, u), (a, t)] := by
  rw [h.children_eq]
  split
  · exact .refl _
  · exact .swap _ _ _

/-- With different bytes and something in both slots the node is sound. -/
theorem sound (hab : a ≠ b) (ht : t ≠ .empty) (hu : u ≠ .empty) : nd.Sound := by
  have hnone : ∀ e, e ∉ RadixIndex.Node.children (new s) := fun e he => by
    rw [children_new] at he
    exact absurd he List.not_mem_nil
  obtain ⟨first', hfirst, hone, -⟩ := addChild_ok (sound_new s) (fun t => hnone (a, t)) ht 0
  obtain rfl : first = first' :=
    congrArg Prod.fst (Except.ok.inj ((h.addFirst _).symm.trans hfirst))
  have habsent : ∀ t', (b, t') ∉ RadixIndex.Node.children first := fun t' he =>
    hab (congrArg Prod.fst (((hone.mem _).mp he).resolve_right (hnone _))).symm
  obtain ⟨nd', hsecond, htwo, -⟩ := addChild_ok hone.sound habsent hu 0
  obtain rfl : nd = nd' := congrArg Prod.fst (Except.ok.inj ((h.addSecond _).symm.trans hsecond))
  exact htwo.sound

theorem sized (hsound : nd.Sound) : Sized nd := by
  rw [Sized, h.size_eq, hsound.count_eq_length, h.perm.length_eq]
  exact Nat.le_refl 2

end ForksTo

/-- A new node with two children. -/
structure Forked (L : Loader) (n : Nat) (path stem : Key) (t u : Tree) (nd : Node) : Prop where
  firm : nd.Firm L n path stem
  recount_eq : Tree.recount nd.toTree = .one (size nd) + (t.recount + u.recount)
  mem : ∀ x, x ∈ nd.toTree.records ↔ x ∈ u.records ∨ x ∈ t.records

/-- A new node is firm when the two trees are firm where it puts them. -/
theorem ForksTo.forked {a b : UInt8} {t u : Tree} {first nd : Node}
    (h : ForksTo (Stem.of stem) a b t u first nd) (hab : a ≠ b)
    (ht : t.Firm L n (path ++ stem ++ [a])) (hu : u.Firm L n (path ++ stem ++ [b])) :
    Forked L n path stem t u nd := by
  have hsound := h.sound hab ht.fits.ne_empty hu.fits.ne_empty
  have hperm := h.perm
  refine ⟨?_, ?_, ?_⟩
  · refine firm_of_children hsound h.stem_eq ?_ (h.sized hsound) ?_
    · rw [hperm.length_eq]
      exact Nat.le_refl 2
    · intro e he
      have he := hperm.mem_iff.mp he
      simp only [List.mem_cons, List.not_mem_nil, or_false] at he
      rcases he with rfl | rfl
      · exact hu
      · exact ht
  · rw [recount_of_perm hperm]
    simp [add_comm]
  · intro x
    rw [RadixIndex.Node.toTree, RadixIndex.Tree.mem_records_node]
    show (∃ e ∈ RadixIndex.Node.children nd, _) ↔ _
    simp [hperm.mem_iff]

/-! ## Nodes that carry a stem -/

variable {nd : Node}

/-- The stem of the node is `stem`, at the offset `depth` of keys of `n` bytes: the header has
the length and the beginning of it, and if that is not all, the key of the smallest leaf below
the node has it. -/
structure Carries (L : Loader) (n depth : Nat) (stem : Key) (nd : Node) : Prop where
  stem_eq : nd.header.stem = Stem.of stem
  spelled : inlineCapacity < stem.length → ∃ r, nd.toTree.least? = some r ∧
    ((L.load r n).drop depth).take stem.length = stem

/-- In its place a node carries its stem. -/
theorem carries_of_stands (hnd : nd.Stands L n path stem) :
    nd.Carries L n path.length stem where
  stem_eq := spells_iff.mp hnd.spells
  spelled _ := by
    obtain ⟨r, hr, hmem⟩ := hnd.rooted.rooted.exists_least
    have hpath := hnd.stem_of_mem hmem
    have hstem := (Key.append_prefix_iff (Key.prefix_of_append hpath)).mp hpath
    exact ⟨r, hr, (List.prefix_iff_eq_take.mp hstem).symm⟩

namespace Carries

variable (h : nd.Carries L n depth stem)

include h

theorem stemLength_eq : nd.stemLength = stem.length := congrArg Stem.length h.stem_eq

theorem stemBytes_eq : nd.stemBytes = stem.take inlineCapacity := congrArg Stem.inline h.stem_eq

theorem fullStem_eq : nd.fullStem L depth n = .ok stem := by
  rw [RadixIndex.Node.fullStem, RadixIndex.Node.witness?, h.stemLength_eq, h.stemBytes_eq,
    List.length_take]
  by_cases hshort : stem.length ≤ inlineCapacity
  · rw [if_pos (by omega), List.take_of_length_le hshort]
  · obtain ⟨r, hr, hspelled⟩ := h.spelled (Nat.not_le.mp hshort)
    have hlength := congrArg List.length hspelled
    rw [List.length_take, List.length_drop] at hlength
    rw [if_neg (by omega), hr]
    dsimp only
    rw [Key.slice_of_le (Nat.le_add_right _ _) (by omega), List.drop_take, Nat.add_sub_cancel_left,
      hspelled]

/-- With what comes after a byte of the stem as its stem, the node carries it after that byte. -/
theorem withStem (k : Nat) :
    (withStem nd (Stem.of (stem.drop k))).Carries L n (depth + k) (stem.drop k) where
  stem_eq := rfl
  spelled hlong := by
    rw [List.length_drop] at hlong
    obtain ⟨r, hr, hspelled⟩ := h.spelled (by omega)
    refine ⟨r, (least?_withStem nd _).trans hr, ?_⟩
    rw [← List.drop_drop, List.length_drop, ← List.drop_take, hspelled]

end Carries

/-- Splitting the stem of a node puts a new one above it, with what comes before the branch byte
as its stem. -/
theorem splitStem_eq (h : nd.Carries L key.length depth stem) {mismatch : Nat}
    (hm : mismatch < stem.length) {b : UInt8} (hb : key[depth + mismatch]? = some b)
    (record : Record) :
    ∃ first parent, ForksTo (Stem.of (stem.take mismatch)) stem[mismatch] b
        (withStem nd (Stem.of (stem.drop (mismatch + 1)))).toTree (.leaf record) first parent ∧
      ∀ s, splitStem L nd key depth mismatch record s = .ok (parent, s.alloc .four) := by
  obtain ⟨first, parent, hfork⟩ := exists_fork (Stem.of (stem.take mismatch)) stem[mismatch] b
    (withStem nd (Stem.of (stem.drop (mismatch + 1)))).toTree (.leaf record)
  refine ⟨first, parent, hfork, ?_⟩
  intro s
  have hbyte : Key.byteAt key (depth + mismatch) = .ok b := by
    rw [Key.byteAt, hb]
  have hrest : Stem.make (nd.stemLength - mismatch - 1) (stem.drop (mismatch + 1)) =
      .ok (Stem.of (stem.drop (mismatch + 1))) := by
    have hlength : nd.stemLength - mismatch - 1 = (stem.drop (mismatch + 1)).length := by
      rw [h.stemLength_eq, List.length_drop, Nat.sub_sub]
    rw [hlength, Stem.make_ok (Nat.le_refl _), List.take_length]
  rw [splitStem, h.stem_eq, Stem.take_of (Nat.le_of_lt hm), h.fullStem_eq, ok_bind,
    Key.byteAt_of_lt hm, ok_bind,
    hrest, ok_bind, hfork.addFirst, ok_bind, hbyte]
  exact hfork.addSecond _

end RadixIndex.Dynamic.Node
