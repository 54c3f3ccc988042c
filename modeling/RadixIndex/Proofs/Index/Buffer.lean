/-
# The write buffer

With automatic merging the dynamic tree stays small.  The merge that is due comes before a
record is stored, so what counts is the size before the write: where no merge is due, the
dynamic tree has no more records than the threshold, or no more than the static tree has for
each of the ratio, and one more record comes in; where one is due, the record that comes in
is the only one (`Layers.perform_bounded`).  Erasing and merging by hand only take records
out of the dynamic tree, and nothing takes any out of the static one.

So the bound holds of every index that there can be, and the static tree never gets smaller;
without automatic merging nothing but a merge by hand touches it (`buffer_bounded`).
-/
import RadixIndex.Proofs.Index.Trees

namespace RadixIndex

/-! ## Numbers of keys -/

namespace Contents

theorem card_insert_le (m : Contents) (k : Key) (r : Record) :
    (m.insert k r).keys.card ≤ m.keys.card + 1 := by
  have hkeys : (m.insert k r).keys ⊆ insert k m.keys := by
    intro k' hk'
    rw [Finmap.mem_keys, Finmap.mem_insert] at hk'
    rw [Finset.mem_insert, Finmap.mem_keys]
    exact hk'
  exact (Finset.card_le_card hkeys).trans (Finset.card_insert_le k m.keys)

theorem card_erase_le (m : Contents) (k : Key) : (m.erase k).keys.card ≤ m.keys.card := by
  rw [Finmap.keys_erase]
  exact Finset.card_erase_le

theorem card_le_union (m m' : Contents) : m'.keys.card ≤ (m ∪ m').keys.card := by
  rw [Finmap.keys_union]
  exact Finset.card_le_card Finset.subset_union_right

end Contents

theorem Config.mergeRatio_pos {c : Config} (hc : c.validate = .ok ()) : 0 < c.mergeRatio := by
  refine Nat.pos_of_ne_zero ?_
  intro hzero
  rw [validate, if_pos hzero] at hc
  by_cases hkey : c.keyLength = 0
  · rw [if_pos hkey] at hc
    exact absurd hc nofun
  · rw [if_neg hkey] at hc
    exact absurd hc nofun

namespace Index

variable {c : Config} {L : Loader} {x : Index}

/-! ## Layers -/

namespace Layers

variable {s : Layers}

/-- The most records that the dynamic layer has where no merge is due. -/
def quota (c : Config) (s : Layers) : Nat :=
  max c.mergeThreshold (s.frozen.keys.card / c.mergeRatio)

/-- Where no merge is due, the dynamic layer is within its quota. -/
theorem card_le_quota (hratio : 0 < c.mergeRatio) (hauto : c.autoMerge = true)
    (hroom : s.frozen.keys.card < 2 ^ 64 - 1) (hdue : s.due c = false) :
    s.dynamic.keys.card ≤ s.quota c := by
  rw [due, hauto, Bool.true_and, Bool.and_eq_false_iff, decide_eq_false_iff_not,
    decide_eq_false_iff_not, Nat.not_lt, Nat.not_lt] at hdue
  rcases hdue with hthreshold | hfrozen
  · exact hthreshold.trans (Nat.le_max_left _ _)
  · -- The product cannot be cut off, since the frozen layer is smaller than that.
    have hproduct : s.dynamic.keys.card * c.mergeRatio ≤ s.frozen.keys.card := by omega
    exact ((Nat.le_div_iff_mul_le hratio).mpr hproduct).trans (Nat.le_max_right _ _)

/-- After the merge that is due, if one is, the dynamic layer is within its quota. -/
theorem card_mergedIfDue_le (hratio : 0 < c.mergeRatio) (hauto : c.autoMerge = true)
    (hroom : (s.mergedIfDue c).frozen.keys.card < 2 ^ 64 - 1) :
    (s.mergedIfDue c).dynamic.keys.card ≤ (s.mergedIfDue c).quota c := by
  rw [mergedIfDue] at hroom ⊢
  split
  · exact Nat.zero_le _
  · rename_i hdue
    rw [if_neg hdue] at hroom
    exact card_le_quota hratio hauto hroom (Bool.not_eq_true _ ▸ hdue)

theorem card_frozen_le_merged (s : Layers) : s.frozen.keys.card ≤ s.merged.frozen.keys.card :=
  s.dynamic.card_le_union s.frozen

theorem card_frozen_le_mergedIfDue (s : Layers) :
    s.frozen.keys.card ≤ (s.mergedIfDue c).frozen.keys.card := by
  rw [mergedIfDue]
  split
  · exact s.card_frozen_le_merged
  · exact Nat.le_refl _

/-- Nothing takes records out of the frozen layer. -/
theorem card_frozen_le_perform (s : Layers) (o : Operation) :
    s.frozen.keys.card ≤ (s.perform c o).2.frozen.keys.card := by
  cases o with
  | insert key r => exact s.card_frozen_le_mergedIfDue
  | upsert key r => exact s.card_frozen_le_mergedIfDue
  | erase key => exact Nat.le_refl _
  | merge => exact s.card_frozen_le_merged

/-- The dynamic layer has one record more than its quota at most. -/
def Bounded (c : Config) (s : Layers) : Prop := s.dynamic.keys.card ≤ s.quota c + 1

/-- An operation keeps the dynamic layer bounded, as long as the frozen layer has room. -/
theorem perform_bounded (hratio : 0 < c.mergeRatio) (hauto : c.autoMerge = true) (o : Operation)
    (hs : s.frozen.keys.card < 2 ^ 64 - 1 → s.Bounded c)
    (hroom : (s.perform c o).2.frozen.keys.card < 2 ^ 64 - 1) : (s.perform c o).2.Bounded c := by
  cases o with
  | insert key r =>
      have hquota := card_mergedIfDue_le hratio hauto hroom
      have hinsert := (s.mergedIfDue c).dynamic.card_insert_le key r
      show Finset.card (Finmap.keys (if key ∈ (s.mergedIfDue c).dynamic then _ else _)) ≤
        (s.mergedIfDue c).quota c + 1
      split
      · exact Nat.le_succ_of_le hquota
      · exact hinsert.trans (Nat.succ_le_succ hquota)
  | upsert key r =>
      have hquota := card_mergedIfDue_le hratio hauto hroom
      have hinsert := (s.mergedIfDue c).dynamic.card_insert_le key r
      exact hinsert.trans (Nat.succ_le_succ hquota)
  | erase key => exact (s.dynamic.card_erase_le key).trans (hs hroom)
  | merge => exact Nat.zero_le _

end Layers

/-! ## Indexes -/

/-- The dynamic tree of an index that there can be has one record more than its quota at
most. -/
theorem Reachable.bounded (h : x.Reachable c L) (hauto : c.autoMerge = true)
    (hroom : x.frozen.size < 2 ^ 64 - 1) :
    x.dynamic.size ≤ max c.mergeThreshold (x.frozen.size / c.mergeRatio) + 1 := by
  have hratio := Config.mergeRatio_pos h.validate
  induction h with
  | empty heq =>
      obtain ⟨-, rfl⟩ := eq_new_of_withConfig heq
      exact Nat.zero_le _
  | @perform x x' o answer hx ho heq ih =>
      obtain ⟨s, hs⟩ := hx.refines
      obtain ⟨x'', heq', hs'⟩ := perform_simulates c L x s o hs ho
      obtain ⟨-, rfl⟩ := Prod.mk.inj (Except.ok.inj (heq.symm.trans heq'))
      rw [hs.dynamic.card_eq, hs.frozen.card_eq] at ih
      rw [hs'.frozen.card_eq] at hroom
      rw [hs'.dynamic.card_eq, hs'.frozen.card_eq]
      exact Layers.perform_bounded hratio hauto o ih hroom

/-- Without automatic merging only a merge changes the static tree. -/
theorem frozen_of_perform {x' : Index} {o : Operation} {answer : Answer}
    (hauto : x.config.autoMerge = false) (ho : o ≠ .merge)
    (h : x.perform o = .ok (answer, x')) : x'.frozen = x.frozen := by
  rcases perform_cases h with ⟨hmerge, -⟩ | ⟨w, y, a, dynamic, -, hy, -, rfl⟩
  · exact absurd hmerge ho
  · rcases hy with rfl | ⟨-, hdue⟩
    · rfl
    · rcases mergeIfDue_cases hdue with rfl | ⟨hdue, -⟩
      · rfl
      · simp [mergeDue, hauto] at hdue

/-- In an index that there can be, with automatic merging, the dynamic tree has at most one
record more than the threshold, or than the static tree has for each of the ratio, as long
as the static tree has room.  Every operation leaves as many records in the static tree as
there were or more, and without automatic merging a write leaves all of it as it was. -/
theorem buffer_bounded (h : x.Reachable c L) :
    (c.autoMerge = true → x.frozen.size < 2 ^ 64 - 1 →
      x.dynamic.size ≤ max c.mergeThreshold (x.frozen.size / c.mergeRatio) + 1) ∧
    ∀ o : Operation, o.Proper L c.keyLength → ∃ answer x', x.perform o = .ok (answer, x') ∧
      x.frozen.size ≤ x'.frozen.size ∧
        (c.autoMerge = false → o ≠ .merge → x'.frozen = x.frozen) := by
  refine ⟨h.bounded, ?_⟩
  intro o ho
  obtain ⟨s, hs⟩ := h.refines
  obtain ⟨x', hperform, hs'⟩ := perform_simulates c L x s o hs ho
  refine ⟨_, x', hperform, ?_, ?_⟩
  · rw [hs.frozen.card_eq, hs'.frozen.card_eq]
    exact s.card_frozen_le_perform o
  · intro hauto hne
    exact frozen_of_perform (by rw [hs.config_eq, hauto]) hne hperform

/-- An index that has merged before it stored its second record, and one that does not merge
by itself. -/
theorem buffer_bounded_of_one_merge :
    let x (autoMerge : Bool) (frozen : StaticTree) (dynamic : DynamicTree) : Index :=
      ⟨{ keyLength := 2, autoMerge, mergeThreshold := 0, mergeRatio := 1 }, .modulo 65536,
        dynamic, frozen⟩
    let merged := x true (.ofRoot (.leaf 1) 2 1) ⟨.leaf 2, 2, 1, {}⟩
    let unmerged := x false (.empty 2) ⟨.leaf 1, 2, 1, {}⟩
    merged.dynamic.size ≤ max 0 (merged.frozen.size / 1) + 1 ∧
      ∃ answer x', unmerged.perform (.upsert [0, 2] 2) = .ok (answer, x') ∧
        x'.frozen = unmerged.frozen := by
  have hmerged := buffer_bounded (L := .modulo 65536)
    (c := { keyLength := 2, autoMerge := true, mergeThreshold := 0, mergeRatio := 1 })
    (.perform (o := .insert [0, 2] 2)
      (.perform (o := .insert [0, 1] 1) (.empty rfl) ⟨rfl, by decide⟩ rfl) ⟨rfl, by decide⟩ rfl)
  have hunmerged := buffer_bounded (L := .modulo 65536)
    (c := { keyLength := 2, autoMerge := false, mergeThreshold := 0, mergeRatio := 1 })
    (.perform (o := .insert [0, 1] 1) (.empty rfl) ⟨rfl, by decide⟩ rfl)
  obtain ⟨answer, x', hperform, -, hfrozen⟩ :=
    hunmerged.2 (.upsert [0, 2] 2) ⟨rfl, by decide⟩
  exact ⟨hmerged.1 rfl (by decide), answer, x', hperform, hfrozen rfl nofun⟩

end Index

end RadixIndex
