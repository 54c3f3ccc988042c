/-
# The trees of an index

An operation on an index writes to the dynamic tree, and freezes and merges before it or
instead of it.  So the trees of an index that there can be are trees that there can be
(`Reachable.trees`): the dynamic one comes from writes, and the frozen one from freezing
and merging under the one policy of the index.  Whatever is known of such trees holds of
the trees of an index; in particular the nodes of the frozen one always have the shapes
that the policy asks for (`frozen_shaped`).
-/
import RadixIndex.Proofs.Dynamic.Regular
import RadixIndex.Proofs.Index.Schedule
import RadixIndex.Proofs.Static.Shape

namespace RadixIndex.Index

variable {c : Config} {L : Loader} {x x' : Index}

/-! ## Single operations -/

/-- A merge leaves everything as it is, or freezes the dynamic tree and puts what comes of
it in the place of the frozen one, merged with it or alone. -/
theorem merge_cases {outcome : MergeOutcome} (h : x.merge = .ok (x', outcome)) :
    x' = x ∨ ∃ fresh dynamic frozen,
      x.dynamic.freeze x.loader x.config.shapePolicy = .ok (fresh, dynamic) ∧
        x' = { x with dynamic, frozen } ∧
          (frozen = fresh ∨
            fresh.merge x.frozen x.loader x.config.shapePolicy = .ok (frozen, outcome)) := by
  rw [merge] at h
  split at h
  · exact Or.inl (Prod.mk.inj (Except.ok.inj h)).1.symm
  · obtain ⟨⟨fresh, dynamic⟩, hfreeze, h⟩ := bind_eq_ok.mp h
    dsimp only at h
    split at h
    · obtain ⟨rfl, -⟩ := Prod.mk.inj (Except.ok.inj h)
      exact Or.inr ⟨fresh, dynamic, fresh, hfreeze, rfl, Or.inl rfl⟩
    · obtain ⟨⟨frozen, outcome'⟩, hmerge, h⟩ := bind_eq_ok.mp h
      obtain ⟨rfl, rfl⟩ := Prod.mk.inj (Except.ok.inj h)
      exact Or.inr ⟨fresh, dynamic, frozen, hfreeze, rfl, Or.inr hmerge⟩

/-- Before a record is stored there is a merge, or nothing happens. -/
theorem mergeIfDue_cases (h : x.mergeIfDue = .ok x') :
    x' = x ∨ x.mergeDue = true ∧ ∃ outcome, x.merge = .ok (x', outcome) := by
  rw [mergeIfDue] at h
  split at h
  · rename_i hdue
    obtain ⟨⟨y, outcome⟩, hmerge, h⟩ := bind_eq_ok.mp h
    obtain rfl : y = x' := Except.ok.inj h
    exact Or.inr ⟨hdue, outcome, hmerge⟩
  · exact Or.inl (Except.ok.inj h).symm

/-- The write that an operation does to the dynamic tree, merging aside. -/
def Operation.write? : Operation → Option DynamicTree.Write
  | .insert key record => some (.insert key record)
  | .upsert key record => some (.upsert key record)
  | .erase key => some (.erase key)
  | .merge => none

/-- The operation begins with the merge that is due, if one is. -/
def Operation.stores : Operation → Bool
  | .insert .. | .upsert .. => true
  | .erase _ | .merge => false

/-- An operation that is not a merge is a write to the dynamic tree, which the merge that is
due comes before when a record is stored. -/
theorem perform_cases {o : Operation} {answer : Answer} (h : x.perform o = .ok (answer, x')) :
    (o = .merge ∧ ∃ outcome, x.merge = .ok (x', outcome)) ∨
      ∃ w y a dynamic, o.write? = some w ∧ (y = x ∨ o.stores = true ∧ x.mergeIfDue = .ok y) ∧
        y.dynamic.write y.loader w = .ok (a, dynamic) ∧ x' = { y with dynamic } := by
  cases o with
  | insert key r =>
      obtain ⟨⟨inserted, y'⟩, hinsert, h⟩ := bind_eq_ok.mp h
      obtain ⟨y, hdue, hinsert⟩ := bind_eq_ok.mp hinsert
      obtain ⟨⟨inserted', dynamic⟩, hwrite, hinsert⟩ := bind_eq_ok.mp hinsert
      obtain ⟨-, rfl⟩ := Prod.mk.inj (Except.ok.inj h)
      obtain ⟨-, rfl⟩ := Prod.mk.inj (Except.ok.inj hinsert)
      refine Or.inr ⟨_, y, some inserted', dynamic, rfl, Or.inr ⟨rfl, hdue⟩, ?_, rfl⟩
      rw [DynamicTree.write, hwrite]
      rfl
  | upsert key r =>
      obtain ⟨y', hupsert, h⟩ := bind_eq_ok.mp h
      obtain ⟨y, hdue, hupsert⟩ := bind_eq_ok.mp hupsert
      obtain ⟨dynamic, hwrite, hupsert⟩ := bind_eq_ok.mp hupsert
      obtain ⟨-, rfl⟩ := Prod.mk.inj (Except.ok.inj h)
      obtain rfl := Except.ok.inj hupsert
      refine Or.inr ⟨_, y, none, dynamic, rfl, Or.inr ⟨rfl, hdue⟩, ?_, rfl⟩
      rw [DynamicTree.write, hwrite]
      rfl
  | erase key =>
      obtain ⟨⟨erased, y'⟩, herase, h⟩ := bind_eq_ok.mp h
      obtain ⟨⟨erased', dynamic⟩, hwrite, herase⟩ := bind_eq_ok.mp herase
      obtain ⟨-, rfl⟩ := Prod.mk.inj (Except.ok.inj h)
      obtain ⟨-, rfl⟩ := Prod.mk.inj (Except.ok.inj herase)
      refine Or.inr ⟨_, x, some erased', dynamic, rfl, Or.inl rfl, ?_, rfl⟩
      rw [DynamicTree.write, hwrite]
      rfl
  | merge =>
      obtain ⟨⟨y, outcome⟩, hmerge, h⟩ := bind_eq_ok.mp h
      obtain ⟨-, rfl⟩ := Prod.mk.inj (Except.ok.inj h)
      exact Or.inl ⟨rfl, outcome, hmerge⟩

/-! ## Runs of operations -/

/-- The trees of the index are such as writing, freezing and merging make. -/
structure MadeOf (c : Config) (L : Loader) (x : Index) : Prop where
  config_eq : x.config = c
  loader_eq : x.loader = L
  dynamic : x.dynamic.Reachable L c.keyLength
  frozen : x.frozen.ReachableUnder L c.keyLength c.shapePolicy

theorem madeOf_new (c : Config) (L : Loader) : (new c L).MadeOf c L :=
  -- The empty static tree is what the empty dynamic tree is frozen to.
  ⟨rfl, rfl, .empty, .freeze .empty rfl⟩

namespace MadeOf

theorem merge {outcome : MergeOutcome} (hx : x.MadeOf c L) (h : x.merge = .ok (x', outcome)) :
    x'.MadeOf c L := by
  rcases merge_cases h with rfl | ⟨fresh, dynamic, frozen, hfreeze, rfl, hfrozen⟩
  · exact hx
  · rw [hx.loader_eq, hx.config_eq] at hfreeze hfrozen
    have hact : x.dynamic.act L (.freeze c.shapePolicy) = .ok (none, dynamic) := by
      rw [DynamicTree.act, hfreeze]
      rfl
    have hrest : dynamic.Reachable L c.keyLength :=
      hx.dynamic.act (a := .freeze c.shapePolicy) trivial hact
    have hfresh : fresh.ReachableUnder L c.keyLength c.shapePolicy := .freeze hx.dynamic hfreeze
    refine ⟨hx.config_eq, hx.loader_eq, hrest, ?_⟩
    rcases hfrozen with rfl | hmerge
    · exact hfresh
    · exact .merge hfresh hx.frozen hmerge

theorem mergeIfDue (hx : x.MadeOf c L) (h : x.mergeIfDue = .ok x') : x'.MadeOf c L := by
  rcases mergeIfDue_cases h with rfl | ⟨-, outcome, hmerge⟩
  · exact hx
  · exact hx.merge hmerge

theorem perform {o : Operation} {answer : Answer} (hx : x.MadeOf c L)
    (ho : o.Proper L c.keyLength) (h : x.perform o = .ok (answer, x')) : x'.MadeOf c L := by
  rcases perform_cases h with ⟨-, outcome, hmerge⟩ | ⟨w, y, a, dynamic, hw, hy, hwrite, rfl⟩
  · exact hx.merge hmerge
  · have hy : y.MadeOf c L := by
      rcases hy with rfl | ⟨-, hdue⟩
      · exact hx
      · exact hx.mergeIfDue hdue
    have hproper : w.Proper L c.keyLength := by
      cases o <;> cases hw <;> exact ho
    rw [hy.loader_eq] at hwrite
    exact ⟨hy.config_eq, hy.loader_eq, .write hy.dynamic hproper hwrite, hy.frozen⟩

end MadeOf

theorem Reachable.trees (h : x.Reachable c L) : x.MadeOf c L := by
  induction h with
  | empty heq =>
      obtain ⟨-, rfl⟩ := eq_new_of_withConfig heq
      exact madeOf_new c L
  | perform _ ho heq ih => exact ih.perform ho heq

/-- There is an index only for a valid configuration. -/
theorem Reachable.validate (h : x.Reachable c L) : c.validate = .ok () := by
  induction h with
  | empty heq => exact (eq_new_of_withConfig heq).1
  | perform _ _ _ ih => exact ih

/-! ## The shape of the frozen tree -/

/-- However an index came to be, the nodes of its frozen tree have the shapes that its policy
asks for, and the counters of the frozen tree are right. -/
theorem frozen_shaped (h : x.Reachable c L) : x.frozen.Shaped c.shapePolicy L c.keyLength := by
  obtain ⟨m, hm⟩ := h.trees.frozen.canonicallyHolds
  exact hm.shaped

/-- A leaf beside an inner node, and a merge that adds a leaf to the inner one. -/
theorem frozen_shaped_of_two_merges :
    let c : Config := { keyLength := 2, denseThreshold := 2 }
    let L := Loader.modulo 65536
    ∃ x, (new c L).performAll [.insert [0, 1] 1, .insert [1, 0] 256, .insert [1, 1] 257, .merge,
        .upsert [1, 2] 258, .merge] = .ok x ∧
      x.Reachable c L ∧ x.frozen.Shaped c.shapePolicy L 2 := by
  obtain ⟨x, hrun, hx⟩ := exists_reachable (c := { keyLength := 2, denseThreshold := 2 }) rfl
    (.modulo 65536) [.insert [0, 1] 1, .insert [1, 0] 256, .insert [1, 1] 257, .merge,
      .upsert [1, 2] 258, .merge] (by decide)
  exact ⟨x, hrun, hx, frozen_shaped hx⟩

end RadixIndex.Index
