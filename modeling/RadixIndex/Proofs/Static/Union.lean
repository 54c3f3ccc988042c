/-
# Merging is union

The static trees that there can be come from freezing dynamic trees and from merging,
under any policies (`Reachable`).  Merging two of them always answers, and what it
answers is the union of the two in which the newer one has the say, with right
counts and nothing for the verifier to find (`merge_newer_union`).
-/
import Mathlib.Data.Set.Card
import RadixIndex.Proofs.Static.Integrity

open RadixIndex.Static

namespace RadixIndex.StaticTree

variable {L : Loader} {n : Nat}

/-- The trees that freezing and merging make, for keys of `n` bytes. -/
inductive Reachable (L : Loader) (n : Nat) : StaticTree → Prop
  | freeze {t rest : DynamicTree} {p : ShapePolicy} {f : StaticTree} : t.Reachable L n →
      t.freeze L p = .ok (f, rest) → Reachable L n f
  | merge {newer older t : StaticTree} {p : ShapePolicy} {outcome : MergeOutcome} :
      Reachable L n newer → Reachable L n older →
        newer.merge older L p = .ok (t, outcome) → Reachable L n t

theorem Reachable.refines {t : StaticTree} (h : t.Reachable L n) : ∃ m, t.Refines L n m := by
  induction h with
  | @freeze t rest p f ht heq =>
      obtain ⟨m, hm⟩ := ht.refines
      obtain ⟨f', heq', h'⟩ := freeze_ok hm p
      obtain ⟨rfl, -⟩ := Prod.mk.inj (Except.ok.inj (heq.symm.trans heq'))
      exact ⟨m, h'⟩
  | @merge newer older t p outcome _ _ heq ih ih' =>
      obtain ⟨m, hm⟩ := ih
      obtain ⟨m', hm'⟩ := ih'
      obtain ⟨t', heq', h'⟩ := hm.merge_ok hm' p
      obtain ⟨rfl, -⟩ := Prod.mk.inj (Except.ok.inj (heq.symm.trans heq'))
      exact ⟨m ∪ m', h'⟩

/-- The tree `t` is the union of two trees in which the newer one has the say, and
`outcome` counts its keys and those of both trees. -/
structure NewerUnion (L : Loader) (n : Nat) (newer older t : StaticTree)
    (outcome : MergeOutcome) : Prop where
  get_eq : ∀ key : Key, key.length = n → t.get L key = (newer.get L key).or (older.get L key)
  collisions_eq : (outcome.collisions : ℕ∞) = Set.encard
    {key : Key | key.length = n ∧ (newer.get L key).isSome ∧ (older.get L key).isSome}
  items_eq : outcome.items = t.size
  size_eq : (t.size : ℕ∞) = Set.encard {key : Key | key.length = n ∧ (t.get L key).isSome}
  leafCount_eq : t.root.leafCount = t.size
  verify_eq : t.verifyWith L = .ok []

theorem Refines.newerUnion {newer older t : StaticTree} {m m' : Contents}
    (h : newer.Refines L n m) (h' : older.Refines L n m') (ht : t.Refines L n (m ∪ m'))
    (hn : n ≤ Key.maxLength) : NewerUnion L n newer older t
      ⟨(m ∪ m').keys.card, (m.keys ∩ m'.keys).card⟩ where
  get_eq key hk := by rw [ht.get_eq hk, h.get_eq hk, h'.get_eq hk, Contents.lookup_union]
  collisions_eq := by
    rw [← Set.encard_coe_eq_coe_finsetCard, Finset.coe_inter,
      h.holds.coe_keys fun _ hk => h.get_eq hk, h'.holds.coe_keys fun _ hk => h'.get_eq hk]
    congr 1
    ext key
    simp only [Set.mem_inter_iff, Set.mem_ofPred_eq]
    exact and_and_left.symm
  items_eq := ht.card_eq.symm
  size_eq := by
    rw [ht.card_eq, ← Set.encard_coe_eq_coe_finsetCard,
      ht.holds.coe_keys fun _ hk => ht.get_eq hk]
  leafCount_eq := ht.leafCount_eq
  verify_eq := ht.verifyWith_eq hn

/-- Merging two trees that there can be answers with their union. -/
theorem merge_newer_union {newer older : StaticTree} (hn : n < 2 ^ 32)
    (h : newer.Reachable L n) (h' : older.Reachable L n) (p : ShapePolicy) :
    ∃ t outcome, newer.merge older L p = .ok (t, outcome) ∧
      NewerUnion L n newer older t outcome := by
  obtain ⟨m, hm⟩ := h.refines
  obtain ⟨m', hm'⟩ := h'.refines
  obtain ⟨t, heq, ht⟩ := hm.merge_ok hm' p
  have hroom : n ≤ Key.maxLength := by
    rw [Key.maxLength]
    omega
  exact ⟨t, _, heq, hm.newerUnion hm' ht hroom⟩

/-- The tree frozen of one that any sequence of proper writes leads to. -/
theorem exists_frozen (L : Loader) (n : Nat) (p : ShapePolicy) (writes : List DynamicTree.Write)
    (hw : ∀ w ∈ writes, w.Proper L n) :
    ∃ f, ((DynamicTree.empty n).writeAll L writes >>= fun t => t.freeze L p) = .ok (f, .empty n) ∧
      f.Reachable L n := by
  obtain ⟨t, hwrites, ht⟩ := DynamicTree.exists_reachable L n writes hw
  obtain ⟨m, hm⟩ := ht.refines
  obtain ⟨f, hfreeze, -⟩ := freeze_ok hm p
  exact ⟨f, by rw [hwrites, ok_bind, hfreeze], .freeze ht hfreeze⟩

/-- Two roots with three children each: under the first byte there are nodes whose stems part,
under the second two leaves with the same key, and under the third a node whose stem goes on
beyond that of the other, which has a leaf there. -/
theorem merge_newer_union_of_parted_stems :
    let L := Loader.modulo 0x100000000
    let frozen (rs : List Record) := (DynamicTree.empty 4).writeAll L
      (rs.map fun r => .insert (L.load r 4) r) >>= fun t => t.freeze L {}
    let recent : List Record := [0x01000001, 0x01000002, 0x02000007, 0x03000001, 0x03000002]
    let former : List Record := [0x01000501, 0x01000502, 0x102000007, 0x103000002, 0x03050001]
    ∃ newer older t,
      frozen recent = .ok (newer, .empty 4) ∧ frozen former = .ok (older, .empty 4) ∧
      newer.root.nodes.map RadixIndex.Node.stemBytes = [[], [0, 0], [0, 0]] ∧
      older.root.nodes.map RadixIndex.Node.stemBytes = [[], [0, 5], []] ∧
      newer.merge older L {} = .ok (t, ⟨8, 2⟩) ∧ NewerUnion L 4 newer older t ⟨8, 2⟩ := by
  intro L frozen recent former
  have hfrozen (rs : List Record) : ∃ f, frozen rs = .ok (f, .empty 4) ∧ f.Reachable L 4 := by
    refine exists_frozen L 4 {} _ ?_
    intro w hw
    obtain ⟨r, -, rfl⟩ := List.mem_map.mp hw
    exact ⟨L.length_load r 4, rfl⟩
  obtain ⟨newer, hnewer, h⟩ := hfrozen recent
  obtain ⟨older, holder, h'⟩ := hfrozen former
  have hstems : (frozen recent).map (fun a => a.1.root.nodes.map RadixIndex.Node.stemBytes) =
      .ok [[], [0, 0], [0, 0]] := by decide +kernel
  have hstems' : (frozen former).map (fun a => a.1.root.nodes.map RadixIndex.Node.stemBytes) =
      .ok [[], [0, 5], []] := by decide +kernel
  have hcounts : (frozen recent >>= fun a => frozen former >>= fun b =>
      a.1.merge b.1 L {}).map Prod.snd = .ok ⟨8, 2⟩ := by decide +kernel
  obtain ⟨t, outcome, hmerge, hunion⟩ := merge_newer_union (by decide) h h' {}
  rw [hnewer] at hstems
  rw [holder] at hstems'
  rw [hnewer, ok_bind, holder, ok_bind, hmerge] at hcounts
  obtain rfl := Except.ok.inj hcounts
  exact ⟨newer, older, t, hnewer, holder, Except.ok.inj hstems, Except.ok.inj hstems', hmerge,
    hunion⟩

end RadixIndex.StaticTree
