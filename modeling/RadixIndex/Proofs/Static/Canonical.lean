/-
# Static trees are canonical

Packing is one way: under one policy, the stem and the children of a node decide its
shape, and everything else about it (`Node.Canonical`).  Freezing and merging only leave
packed nodes behind.  In a tree that stands in its place the stem and the records of each
child are decided by the records of the node, so two trees of such nodes with the same
records are the same tree, node for node (`Tree.Formed.unique`).

So under one policy a static tree is known by the map it holds, whatever was written,
frozen and merged to make it (`history_independent`).
-/
import RadixIndex.Proofs.Beginning
import RadixIndex.Proofs.Static.Union

namespace RadixIndex.Static

variable {p : ShapePolicy} {L : Loader} {n : Nat} {path : Key}

/-! ## Nodes -/

/-- The node is what packing under the policy makes of its stem and children. -/
def Node.Canonical (p : ShapePolicy) (nd : Node) : Prop := (Loose.ofNode nd).pack p = nd

namespace Loose

variable {l : Loose}

/-- A packed node can be taken apart again. -/
theorem ofNode_pack (hl : l.Proper) : ofNode (l.pack p) = l := by
  have hmakes := l.pack_makes hl p
  obtain ⟨stem, entries⟩ := l
  rw [ofNode, hmakes.children_eq]
  exact congrArg (Loose.mk · entries) hmakes.stem_eq

theorem canonical_pack (hl : l.Proper) : Node.Canonical p (l.pack p) := by
  rw [Node.Canonical, ofNode_pack hl]

end Loose

theorem suits_canonical (p : ShapePolicy) : Suits (Node.Canonical p) p := by
  refine ⟨fun l hl => l.canonical_pack hl, ?_⟩
  intro nd hnd
  rw [← hnd]
  exact Loose.isLoose_pack _ p

/-- Canonical nodes with the same stem and the same children are the same node. -/
theorem Node.Canonical.unique {nd nd' : Node} (hnd : Node.Canonical p nd)
    (hnd' : Node.Canonical p nd') (hstem : nd.header.stem = nd'.header.stem)
    (hchildren : RadixIndex.Node.children nd = RadixIndex.Node.children nd') : nd = nd' := by
  have hloose : Loose.ofNode nd = Loose.ofNode nd' := by
    rw [Loose.ofNode, Loose.ofNode, hchildren]
    exact congrArg (Loose.mk · (RadixIndex.Node.children nd')) hstem
  calc nd = (Loose.ofNode nd).pack p := hnd.symm
    _ = (Loose.ofNode nd').pack p := by rw [hloose]
    _ = nd' := hnd'

/-! ## Trees -/

/-- Two trees of canonical nodes that stand in the same place and have the same records
are the same tree. -/
theorem Tree.Formed.unique {s t : Tree} (hs : Tree.Formed (Node.Canonical p) L n path s)
    (ht : Tree.Formed (Node.Canonical p) L n path t)
    (hsame : ∀ r, r ∈ s.records ↔ r ∈ t.records) : s = t := by
  induction s generalizing path t with
  | empty => exact absurd rfl hs.fits.ne_empty
  | leaf r =>
      cases t with
      | empty => exact absurd rfl ht.fits.ne_empty
      | leaf r' =>
          have hr := (hsame r).mp (List.mem_singleton_self r)
          rw [List.mem_singleton.mp hr]
      | node h' c' =>
          obtain ⟨hnd', -, -⟩ := formed_node ht
          obtain ⟨r', hr', hne⟩ := hnd'.not_single r
          exact absurd (List.mem_singleton.mp ((hsame r').mpr hr')) hne
  | node h c ih =>
      obtain ⟨hnd, hroot, hbelow⟩ := formed_node hs
      cases t with
      | empty => exact absurd rfl ht.fits.ne_empty
      | leaf r' =>
          obtain ⟨r, hr, hne⟩ := hnd.not_single r'
          exact absurd (List.mem_singleton.mp ((hsame r).mp hr)) hne
      | node h' c' =>
          obtain ⟨hnd', hroot', hbelow'⟩ := formed_node ht
          have hstem := hnd.stem_unique hnd' hsame
          rw [← hstem] at hnd' hbelow'
          -- A child of the first node and the one under its byte in the second are the same.
          have hchild : ∀ b s t, (b, s) ∈ (RadixIndex.Node.mk h c).children →
              (b, t) ∈ (RadixIndex.Node.mk h' c').children →
                (∀ r, r ∈ s.records ↔ r ∈ t.records) → s = t := by
            intro b s t he he' hrecords
            obtain ⟨i, -, rfl⟩ := RadixIndex.Node.mem_children.mp he
            exact ih i (hbelow _ he) (hbelow' _ he') hrecords
          have hchildren : (RadixIndex.Node.mk h c).children =
              (RadixIndex.Node.mk h' c').children := by
            refine hnd.sound.children_eq_of_mem hnd'.sound ?_
            rintro ⟨b, t⟩
            constructor
            · intro he
              obtain ⟨t', he', hrecords⟩ := hnd.exists_child hnd' hsame he
              exact hchild b t t' he he' hrecords ▸ he'
            · intro he'
              obtain ⟨t', he, hrecords⟩ := hnd'.exists_child hnd (fun r => (hsame r).symm) he'
              exact hchild b t' t he he' (fun r => (hrecords r).symm) ▸ he
          exact congrArg RadixIndex.Node.toTree (hroot.unique hroot' hstem hchildren)

end RadixIndex.Static

open RadixIndex.Static

namespace RadixIndex.StaticTree

variable {p : ShapePolicy} {L : Loader} {n : Nat}

/-- The trees that freezing and merging make under one policy, for keys of `n` bytes. -/
inductive ReachableUnder (L : Loader) (n : Nat) (p : ShapePolicy) : StaticTree → Prop
  | freeze {t rest : DynamicTree} {f : StaticTree} : t.Reachable L n →
      t.freeze L p = .ok (f, rest) → ReachableUnder L n p f
  | merge {newer older t : StaticTree} {outcome : MergeOutcome} :
      ReachableUnder L n p newer → ReachableUnder L n p older →
        newer.merge older L p = .ok (t, outcome) → ReachableUnder L n p t

/-- The tree is made of a canonical root and of nothing else, and holds the map. -/
structure CanonicallyHolds (L : Loader) (n : Nat) (p : ShapePolicy) (t : StaticTree)
    (m : Contents) : Prop where
  root : t.root = .empty ∨ Tree.Formed (Node.Canonical p) L n [] t.root
  eq_ofRoot : t = ofRoot t.root n t.root.records.length
  holds : Holds L n t.root.records m

namespace CanonicallyHolds

variable {s t newer older : StaticTree} {m m' : Contents}

theorem refines (h : t.CanonicallyHolds L n p m) : t.Refines L n m := by
  refine ⟨congrArg keyLength h.eq_ofRoot, ?_, congrArg size h.eq_ofRoot, h.holds⟩
  refine h.root.imp_right ?_
  intro hformed
  exact ⟨hformed.fits, hformed.each.imp fun nd hnd => ⟨_, p, hnd⟩⟩

/-- Trees with the same records have the same root, and so are the same. -/
theorem unique (hs : s.CanonicallyHolds L n p m) (ht : t.CanonicallyHolds L n p m')
    (hget : ∀ key : Key, key.length = n → s.get L key = t.get L key) : s = t := by
  have hsame : ∀ r, r ∈ s.root.records ↔ r ∈ t.root.records := by
    intro r
    rw [← hs.holds.get_load (fun _ hk => hs.refines.get_eq hk),
      ← ht.holds.get_load (fun _ hk => ht.refines.get_eq hk), hget _ (L.length_load r n)]
  have hroot : s.root = t.root := by
    rcases hs.root with hempty | hs
    · rcases ht.root with hempty' | ht
      · rw [hempty, hempty']
      · obtain ⟨r, hr⟩ := ht.fits.exists_mem
        rw [← hsame, hempty] at hr
        exact absurd hr List.not_mem_nil
    · rcases ht.root with hempty' | ht
      · obtain ⟨r, hr⟩ := hs.fits.exists_mem
        rw [hsame, hempty'] at hr
        exact absurd hr List.not_mem_nil
      · exact hs.unique ht hsame
  rw [hs.eq_ofRoot, ht.eq_ofRoot, hroot]

/-- Freezing makes a canonical tree. -/
theorem of_freeze {t : DynamicTree} (h : t.Refines L n m) (p : ShapePolicy) :
    ∃ f, t.freeze L p = .ok (f, .empty n) ∧ f.CanonicallyHolds L n p m := by
  obtain ⟨root, hfreeze, hroot, hrecords, -⟩ := freeze_root (suits_canonical p).pack h
  refine ⟨_, hfreeze, hroot, rfl, ?_⟩
  show Holds L n root.records m
  rw [hrecords]
  exact h.holds

/-- Merging two canonical trees makes a canonical tree of both maps. -/
theorem merge_ok (h : newer.CanonicallyHolds L n p m) (h' : older.CanonicallyHolds L n p m') :
    ∃ t outcome, newer.merge older L p = .ok (t, outcome) ∧
      t.CanonicallyHolds L n p (m ∪ m') := by
  obtain ⟨root, hmerge, hroot, hholds⟩ :=
    h.refines.merge_root (suits_canonical p) h'.refines h.root h'.root
  exact ⟨_, _, hmerge, hroot, rfl, hholds⟩

end CanonicallyHolds

theorem ReachableUnder.canonicallyHolds {t : StaticTree} (h : t.ReachableUnder L n p) :
    ∃ m, t.CanonicallyHolds L n p m := by
  induction h with
  | @freeze t rest f ht heq =>
      obtain ⟨m, hm⟩ := ht.refines
      obtain ⟨f', heq', h'⟩ := CanonicallyHolds.of_freeze hm p
      obtain ⟨rfl, -⟩ := Prod.mk.inj (Except.ok.inj (heq.symm.trans heq'))
      exact ⟨m, h'⟩
  | @merge newer older t outcome _ _ heq ih ih' =>
      obtain ⟨m, hm⟩ := ih
      obtain ⟨m', hm'⟩ := ih'
      obtain ⟨t', outcome', heq', h'⟩ := hm.merge_ok hm'
      obtain ⟨rfl, -⟩ := Prod.mk.inj (Except.ok.inj (heq.symm.trans heq'))
      exact ⟨m ∪ m', h'⟩

/-- Under one policy, two static trees that there can be and that find the same records
are the same tree, with the same counts and the same shape report.  In particular, two
frozen trees are merged to the tree that freezing makes of any dynamic tree with the
contents of both. -/
theorem history_independent (L : Loader) (n : Nat) (p : ShapePolicy) :
    (∀ s t : StaticTree, s.ReachableUnder L n p → t.ReachableUnder L n p →
      (∀ key : Key, key.length = n → s.get L key = t.get L key) →
        s = t ∧ s.stats = t.stats ∧ s.histogram = t.histogram) ∧
    ∀ newer older both : DynamicTree, newer.Reachable L n → older.Reachable L n →
      both.Reachable L n →
      (∀ key : Key, key.length = n → both.get L key = (newer.get L key).or (older.get L key)) →
        ∃ f f' f'' outcome, newer.freeze L p = .ok (f, .empty n) ∧
          older.freeze L p = .ok (f', .empty n) ∧ both.freeze L p = .ok (f'', .empty n) ∧
            f.merge f' L p = .ok (f'', outcome) := by
  constructor
  · intro s t hs ht hget
    obtain ⟨m, hm⟩ := hs.canonicallyHolds
    obtain ⟨m', hm'⟩ := ht.canonicallyHolds
    obtain rfl := hm.unique hm' hget
    exact ⟨rfl, rfl, rfl⟩
  · intro newer older both hnewer holder hboth hget
    obtain ⟨m, hm⟩ := hnewer.refines
    obtain ⟨m', hm'⟩ := holder.refines
    obtain ⟨m'', hm''⟩ := hboth.refines
    obtain ⟨f, hfreeze, hf⟩ := CanonicallyHolds.of_freeze hm p
    obtain ⟨f', hfreeze', hf'⟩ := CanonicallyHolds.of_freeze hm' p
    obtain ⟨f'', hfreeze'', hf''⟩ := CanonicallyHolds.of_freeze hm'' p
    obtain ⟨merged, outcome, hmerge, hmerged⟩ := hf.merge_ok hf'
    refine ⟨f, f', f'', outcome, hfreeze, hfreeze', hfreeze'', ?_⟩
    rw [hmerge, hmerged.unique hf'']
    intro key hk
    rw [hmerged.refines.get_eq hk, Contents.lookup_union, hf''.refines.get_eq hk,
      ← hm.get_eq hk, ← hm'.get_eq hk, ← hm''.get_eq hk, hget key hk]

/-- Trees that share a key, and the records of both stored in another order. -/
theorem history_independent_of_overlap :
    let L := Loader.modulo 256
    ∃ newer older both : DynamicTree,
      (DynamicTree.empty 2).upsert L [0, 1] 257 = .ok newer ∧
        ((DynamicTree.empty 2).upsert L [0, 1] 1 >>= fun t => t.upsert L [0, 2] 2) = .ok older ∧
        ((DynamicTree.empty 2).upsert L [0, 2] 2 >>= fun t => t.upsert L [0, 1] 257) = .ok both ∧
          ∃ f f' s t outcome, newer.freeze L {} = .ok (f, .empty 2) ∧
            older.freeze L {} = .ok (f', .empty 2) ∧ f.merge f' L {} = .ok (s, outcome) ∧
              both.freeze L {} = .ok (t, .empty 2) ∧
                s = t ∧ s.stats = t.stats ∧ s.histogram = t.histogram := by
  have hupsert : ∀ (t : DynamicTree) (m : Contents) (key : Key) (r : Record),
      t.Reachable (.modulo 256) 2 ∧ t.Refines (.modulo 256) 2 m →
        key.length = 2 ∧ (Loader.modulo 256).load r 2 = key →
          ∃ t', t.upsert (.modulo 256) key r = .ok t' ∧
            t'.Reachable (.modulo 256) 2 ∧ t'.Refines (.modulo 256) 2 (m.insert key r) := by
    intro t m key r ⟨ht, hm⟩ hproper
    obtain ⟨t', heq, h'⟩ := hm.upsert_ok hproper.1 hproper.2
    have hwrite : t.write (.modulo 256) (.upsert key r) = .ok (none, t') := by
      rw [DynamicTree.write, heq]
      rfl
    exact ⟨t', heq, .write (w := .upsert key r) ht hproper hwrite, h'⟩
  have hempty : (DynamicTree.empty 2).Reachable (.modulo 256) 2 ∧
      (DynamicTree.empty 2).Refines (.modulo 256) 2 ∅ := ⟨.empty, DynamicTree.refines_empty _ 2⟩
  obtain ⟨newer, hnewer, hn, hm⟩ := hupsert _ _ [0, 1] 257 hempty (by decide)
  obtain ⟨one, hone, h₁⟩ := hupsert _ _ [0, 1] 1 hempty (by decide)
  obtain ⟨older, holder, ho, hm'⟩ := hupsert _ _ [0, 2] 2 h₁ (by decide)
  obtain ⟨other, hother, h₂⟩ := hupsert _ _ [0, 2] 2 hempty (by decide)
  obtain ⟨both, hboth, hb, hm''⟩ := hupsert _ _ [0, 1] 257 h₂ (by decide)
  obtain ⟨hsame, hmerge⟩ := history_independent (.modulo 256) 2 {}
  have hget : ∀ key : Key, key.length = 2 → both.get (.modulo 256) key =
      (newer.get (.modulo 256) key).or (older.get (.modulo 256) key) := by
    intro key hk
    rw [hm.get_eq hk, hm'.get_eq hk, hm''.get_eq hk]
    simp only [Contents.lookup_insert_or, Finmap.lookup_empty, Option.or_none]
    by_cases hkey : key = [0, 1] <;> simp [hkey]
  obtain ⟨f, f', t, outcome, hf, hf', ht, hs⟩ := hmerge newer older both hn ho hb hget
  refine ⟨newer, older, both, hnewer, ?_, ?_, f, f', t, t, outcome, hf, hf', hs, ht, ?_⟩
  · rw [hone, ok_bind, holder]
  · rw [hother, ok_bind, hboth]
  · exact hsame t t (.merge (.freeze hn hf) (.freeze ho hf') hs) (.freeze hb ht) fun _ _ => rfl

end RadixIndex.StaticTree
