/-
# Indexes are pairs of finite maps

The two trees of an index hold two finite maps, its `Layers`.  Storing a record,
erasing one and merging do to the layers what they do to the trees, the merges that
come before a record is stored among them.  So an index that refines two layers goes
on doing so (`perform_simulates`), and from the empty index on, over any sequence of
operations, every answer is that of the layers and every key is found with the
record that the layers have under it (`run_operations`).
-/
import RadixIndex.Index.Basic
import RadixIndex.Proofs.Static.Refines

namespace RadixIndex.Index

/-! ## Operations -/

/-- An operation that changes an index. -/
inductive Operation where
  | insert (key : Key) (record : Record)
  | upsert (key : Key) (record : Record)
  | erase (key : Key)
  | merge

/-- What an operation answers. -/
inductive Answer where
  /-- There is nothing to say. -/
  | done
  /-- Whether a record was stored or erased. -/
  | flag (b : Bool)
  | merged (outcome : MergeOutcome)
  deriving DecidableEq, Repr

/-- The operation is about a key of `n` bytes, which is the key of the record stored. -/
def Operation.Proper (L : Loader) (n : Nat) : Operation → Prop
  | .insert key record | .upsert key record => key.length = n ∧ L.load record n = key
  | .erase key => key.length = n
  | .merge => True

instance (L : Loader) (n : Nat) (o : Operation) : Decidable (o.Proper L n) :=
  match o with
  | .insert key record | .upsert key record =>
      inferInstanceAs (Decidable (key.length = n ∧ L.load record n = key))
  | .erase key => inferInstanceAs (Decidable (key.length = n))
  | .merge => inferInstanceAs (Decidable True)

/-- An operation done to an index. -/
def perform (x : Index) : Operation → Except Fault (Answer × Index)
  | .insert key record => do
      let (inserted, x) ← x.insert key record
      return (.flag inserted, x)
  | .upsert key record => do
      return (.done, ← x.upsert key record)
  | .erase key => do
      let (erased, x) ← x.erase key
      return (.flag erased, x)
  | .merge => do
      let (x, outcome) ← x.merge
      return (.merged outcome, x)

/-- The index after a sequence of operations. -/
def performAll (x : Index) : List Operation → Except Fault Index
  | [] => .ok x
  | o :: ops => do
      let (_, x) ← x.perform o
      performAll x ops

/-! ## Layers -/

/-- What the two trees of an index hold. -/
structure Layers where
  dynamic : Contents
  frozen : Contents

namespace Layers

/-- The layers of the empty index. -/
def empty : Layers := ⟨∅, ∅⟩

/-- The record under a key: the dynamic layer hides the frozen one. -/
def get (s : Layers) (key : Key) : Option Record :=
  (s.dynamic.lookup key).or (s.frozen.lookup key)

/-- An automatic merge is due. -/
def due (c : Config) (s : Layers) : Bool :=
  c.autoMerge && decide (c.mergeThreshold < s.dynamic.keys.card)
    && decide (s.frozen.keys.card < min (s.dynamic.keys.card * c.mergeRatio) (2 ^ 64 - 1))

/-- Everything in the frozen layer, what the dynamic layer had in the place of what
was there. -/
def merged (s : Layers) : Layers := ⟨∅, s.dynamic ∪ s.frozen⟩

/-- The layers after the merge that is due, if one is. -/
def mergedIfDue (c : Config) (s : Layers) : Layers := if s.due c then s.merged else s

/-- An operation done to the layers.  A merge may come before a record is stored, and
a record is only ever stored in and erased from the dynamic layer. -/
def perform (c : Config) (s : Layers) : Operation → Answer × Layers
  | .insert key record =>
      let s := s.mergedIfDue c
      (.flag (decide (key ∉ s.dynamic)),
        { s with dynamic := if key ∈ s.dynamic then s.dynamic else s.dynamic.insert key record })
  | .upsert key record =>
      let s := s.mergedIfDue c
      (.done, { s with dynamic := s.dynamic.insert key record })
  | .erase key =>
      (.flag (decide (key ∈ s.dynamic)), { s with dynamic := s.dynamic.erase key })
  | .merge =>
      (.merged ⟨s.merged.frozen.keys.card, (s.dynamic.keys ∩ s.frozen.keys).card⟩, s.merged)

end Layers

/-! ## Refinement -/

/-- The trees of the index hold the layers. -/
structure Refines (c : Config) (L : Loader) (x : Index) (s : Layers) : Prop where
  config_eq : x.config = c
  loader_eq : x.loader = L
  dynamic : x.dynamic.Refines L c.keyLength s.dynamic
  frozen : x.frozen.Refines L c.keyLength s.frozen

theorem refines_new (c : Config) (L : Loader) : (new c L).Refines c L .empty :=
  ⟨rfl, rfl, DynamicTree.refines_empty L _, StaticTree.refines_empty L _⟩

/-- A valid configuration gives the empty index. -/
theorem withConfig_eq {c : Config} (hc : c.validate = .ok ()) (L : Loader) :
    withConfig c L = .ok (new c L) := by
  rw [withConfig, hc]
  rfl

/-- Only a valid configuration gives an index, and it is the empty one. -/
theorem eq_new_of_withConfig {c : Config} {L : Loader} {x : Index}
    (h : withConfig c L = .ok x) :
    c.validate = .ok () ∧ x = new c L := by
  rw [withConfig] at h
  cases hc : c.validate with
  | error e =>
      rw [hc] at h
      exact absurd h nofun
  | ok u =>
      rw [hc] at h
      exact ⟨rfl, (Except.ok.inj h).symm⟩

namespace Refines

variable {c : Config} {L : Loader} {x : Index} {s : Layers} {key : Key} {r : Record}

theorem get_eq (h : x.Refines c L s) (hk : key.length = c.keyLength) :
    x.get key = s.get key := by
  rw [Index.get, Layers.get, h.loader_eq, h.dynamic.get_eq hk, h.frozen.get_eq hk]

/-! ### Merging -/

theorem merge_ok (h : x.Refines c L s) :
    ∃ x', x.merge = .ok (x', ⟨s.merged.frozen.keys.card,
      (s.dynamic.keys ∩ s.frozen.keys).card⟩) ∧ x'.Refines c L s.merged := by
  rw [Index.merge, h.loader_eq, h.config_eq]
  by_cases hempty : x.dynamic.isEmpty
  · have hnone : s.dynamic = ∅ := by
      refine Contents.eq_empty_of_card ?_
      rw [← h.dynamic.card_eq]
      exact beq_iff_eq.mp hempty
    have hmerged : s.merged = s := by
      obtain ⟨dynamic, frozen⟩ := s
      obtain rfl : dynamic = ∅ := hnone
      rw [Layers.merged, Finmap.empty_union]
    refine ⟨x, ?_, by rw [hmerged]; exact h⟩
    rw [if_pos hempty, hmerged, hnone, h.frozen.card_eq]
    simp
  · obtain ⟨fresh, hfreeze, hfresh⟩ := StaticTree.freeze_ok h.dynamic c.shapePolicy
    have hdynamic := DynamicTree.refines_empty L c.keyLength
    rw [if_neg hempty]
    dsimp only
    rw [hfreeze, ok_bind]
    dsimp only
    by_cases hnone : x.frozen.isEmpty
    · have hfrozen : s.frozen = ∅ := by
        refine Contents.eq_empty_of_card ?_
        rw [← h.frozen.card_eq]
        exact beq_iff_eq.mp hnone
      have hmerged : s.merged.frozen = s.dynamic := by
        rw [Layers.merged, hfrozen, Finmap.union_empty]
      rw [if_pos hnone, hmerged, hfrozen, hfresh.card_eq]
      refine ⟨⟨c, L, .empty c.keyLength, fresh⟩, by simp, rfl, rfl, hdynamic, ?_⟩
      rw [hmerged]
      exact hfresh
    · obtain ⟨frozen, hmerge, hunion⟩ := hfresh.merge_ok h.frozen c.shapePolicy
      rw [if_neg hnone, hmerge]
      exact ⟨⟨c, L, .empty c.keyLength, frozen⟩, rfl, rfl, rfl, hdynamic, hunion⟩

theorem mergeDue_eq (h : x.Refines c L s) : x.mergeDue = s.due c := by
  rw [Index.mergeDue, Layers.due, h.config_eq, h.dynamic.card_eq, h.frozen.card_eq]
  rfl

theorem mergeIfDue_ok (h : x.Refines c L s) :
    ∃ x', x.mergeIfDue = .ok x' ∧ x'.Refines c L (s.mergedIfDue c) := by
  rw [Index.mergeIfDue, h.mergeDue_eq, Layers.mergedIfDue]
  split
  · obtain ⟨x', hmerge, h'⟩ := h.merge_ok
    rw [hmerge]
    exact ⟨x', rfl, h'⟩
  · exact ⟨x, rfl, h⟩

/-! ### Writing -/

theorem insert_ok (h : x.Refines c L s) (ho : Operation.Proper L c.keyLength (.insert key r)) :
    ∃ x', perform x (.insert key r) = .ok ((s.perform c (.insert key r)).1, x') ∧
      x'.Refines c L (s.perform c (.insert key r)).2 := by
  obtain ⟨y, hdue, hy⟩ := h.mergeIfDue_ok
  obtain ⟨dynamic, hinsert, hdynamic⟩ := hy.dynamic.insert_ok ho.1 ho.2
  refine ⟨{ y with dynamic }, ?_, hy.config_eq, hy.loader_eq, hdynamic, hy.frozen⟩
  rw [perform, Index.insert, hdue, ok_bind, hy.loader_eq, hinsert]
  rfl

theorem upsert_ok (h : x.Refines c L s) (ho : Operation.Proper L c.keyLength (.upsert key r)) :
    ∃ x', perform x (.upsert key r) = .ok ((s.perform c (.upsert key r)).1, x') ∧
      x'.Refines c L (s.perform c (.upsert key r)).2 := by
  obtain ⟨y, hdue, hy⟩ := h.mergeIfDue_ok
  obtain ⟨dynamic, hupsert, hdynamic⟩ := hy.dynamic.upsert_ok ho.1 ho.2
  refine ⟨{ y with dynamic }, ?_, hy.config_eq, hy.loader_eq, hdynamic, hy.frozen⟩
  rw [perform, Index.upsert, hdue, ok_bind, hy.loader_eq, hupsert]
  rfl

theorem erase_ok (h : x.Refines c L s) (ho : Operation.Proper L c.keyLength (.erase key)) :
    ∃ x', perform x (.erase key) = .ok ((s.perform c (.erase key)).1, x') ∧
      x'.Refines c L (s.perform c (.erase key)).2 := by
  obtain ⟨dynamic, herase, hdynamic⟩ := h.dynamic.erase_ok ho
  refine ⟨{ x with dynamic }, ?_, h.config_eq, h.loader_eq, hdynamic, h.frozen⟩
  rw [perform, Index.erase, h.loader_eq, herase]
  rfl

end Refines

/-! ## Runs of operations -/

theorem perform_simulates (c : Config) (L : Loader) :
    StepSimulates (Refines c L) perform (Layers.perform c) (Operation.Proper L c.keyLength) := by
  intro x s o h ho
  cases o with
  | insert key r => exact h.insert_ok ho
  | upsert key r => exact h.upsert_ok ho
  | erase key => exact h.erase_ok ho
  | merge =>
      obtain ⟨x', hmerge, h'⟩ := h.merge_ok
      exact ⟨x', by rw [perform, hmerge]; rfl, h'⟩

/-- From the empty index on, any sequence of operations answers as a pair of finite maps
does, and after every operation the index finds under every key what the layers have
there, and its trees have the sizes of the layers. -/
theorem run_operations (c : Config) (hc : c.validate = .ok ()) (L : Loader)
    (ops : List Operation) (hops : ∀ o ∈ ops, o.Proper L c.keyLength) :
    ∃ x states, withConfig c L = .ok x ∧ run perform x ops = .ok states ∧
      List.Forall₂ (fun (y : Answer × Index) (s : Answer × Layers) =>
          y.1 = s.1 ∧ (∀ key : Key, key.length = c.keyLength → y.2.get key = s.2.get key) ∧
            y.2.dynamic.size = s.2.dynamic.keys.card ∧ y.2.frozen.size = s.2.frozen.keys.card)
        states (history (Layers.perform c) .empty ops) := by
  obtain ⟨states, hrun, hall⟩ := run_simulates (perform_simulates c L) (refines_new c L) hops
  refine ⟨new c L, states, withConfig_eq hc L, hrun, hall.imp ?_⟩
  rintro ⟨answer, x⟩ ⟨answer', s⟩ ⟨heq, h⟩
  exact ⟨heq, fun key hk => h.get_eq hk, h.dynamic.card_eq, h.frozen.card_eq⟩

/-- A run with a merge that comes by itself before the second record is stored, and one
in which both layers have the key. -/
theorem run_operations_of_two_bytes :
    let c : Config := { keyLength := 2, autoMerge := true, mergeThreshold := 0, mergeRatio := 1 }
    let L := Loader.modulo 65536
    let ops : List Operation :=
      [.insert [0, 1] 1, .insert [0, 2] 2, .upsert [0, 1] 65537, .erase [0, 2], .merge]
    ∃ x states, withConfig c L = .ok x ∧ run perform x ops = .ok states ∧
      List.Forall₂ (fun (y : Answer × Index) (s : Answer × Layers) =>
          y.1 = s.1 ∧ (∀ key : Key, key.length = c.keyLength → y.2.get key = s.2.get key) ∧
            y.2.dynamic.size = s.2.dynamic.keys.card ∧ y.2.frozen.size = s.2.frozen.keys.card)
        states (history (Layers.perform c) .empty ops) :=
  run_operations { keyLength := 2, autoMerge := true, mergeThreshold := 0, mergeRatio := 1 } rfl
    (.modulo 65536) _ (by decide)

end RadixIndex.Index
