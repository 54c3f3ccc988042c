/-
# Freezing and merging within a set of records

Freezing and merging put together what they are given, so trees within a set of records make a
tree within the set.  What they ask is about leaves of these trees, so they are confined to the
set.
-/
import RadixIndex.Asking.Static
import RadixIndex.Proofs.Dynamic.Within

namespace RadixIndex

open Static

namespace Static

variable {S : Set Record} {n : Nat} {p : ShapePolicy}

/-! ## Nodes in loose form -/

namespace Loose

/-- All that is in the children is of the set. -/
def Within (S : Set Record) (l : Loose) : Prop := ∀ e ∈ l.entries, e.2.Within S

variable {l : Loose}

theorem Within.inOrder (hl : l.Within S) (i : Fin l.keys.length) : (l.inOrder i).Within S :=
  hl _ (List.get_mem _ _)

theorem Within.byByte (hl : l.Within S) (b : Fin 256) : (l.byByte b).Within S :=
  RadixIndex.Tree.within_lookup hl _

theorem Within.pack (hl : l.Within S) (p : ShapePolicy) : (l.pack p).Within S := by
  rw [Loose.pack]
  split
  · split <;> exact .build hl.byByte
  · split <;> exact .build hl.inOrder

theorem Within.toNode (hl : l.Within S) : l.toNode.Within S := .build hl.inOrder

end Loose

theorem Tree.within_graft {t : Tree} (ht : t.Within S) (lead : Key) :
    (Tree.graft p lead t).Within S := by
  induction t generalizing lead with
  | empty => trivial
  | leaf r => exact ht
  | node h c ih =>
      rw [Tree.graft]
      split
      · trivial
      · exact ih _ (ht _) _
      · refine (Loose.Within.pack ?_ p).toTree
        intro e he
        obtain ⟨s, -, rfl⟩ := List.mem_map.mp he
        exact ht s.2

theorem Loose.Within.settle {l : Loose} (hl : l.Within S) : (l.settle p).Within S := by
  rw [Loose.settle]
  split
  · trivial
  · rename_i byte t hentries
    refine Tree.within_graft (hl (byte, t) ?_) _
    rw [hentries]
    exact List.mem_singleton_self _
  · exact (hl.pack p).toTree

theorem Tree.within_settled {t : Tree} (ht : t.Within S) : (Tree.settled p t).Within S := by
  induction t with
  | empty => trivial
  | leaf r => exact ht
  | node h c ih =>
      rw [Tree.settled]
      split
      · refine Loose.Within.settle ?_
        intro e he
        obtain ⟨s, -, rfl⟩ := List.mem_map.mp he
        exact ih s.2 (ht s.2)
      · exact ht

theorem Tree.within_withStem {h : Header} {c : Fin (NodeHeader.width h) → Tree}
    (ht : (RadixIndex.Tree.node h c).Within S) (rest : Key) :
    (Node.withStem ⟨h, c⟩ rest).Within S := by
  have hnd : (RadixIndex.Node.mk h c).Within S := ⟨ht⟩
  have hloose : (Loose.mk rest (RadixIndex.Node.children ⟨h, c⟩)).Within S := hnd.children
  exact hloose.toNode.toTree

theorem Loose.make_within {stem : Key} {entries : List (UInt8 × Tree)} {l : Loose}
    (h : ∀ e ∈ entries, e.2.Within S) (hl : Loose.make stem entries = .ok l) : l.Within S := by
  rw [Loose.make] at hl
  split at hl
  · exact Except.ok.inj hl ▸ h
  · exact absurd hl nofun

/-! ## Freezing and looking up -/

theorem freezeFrom_confined {t : Dynamic.Tree} (ht : t.Within S) {depth : Nat} :
    (Dynamic.Asking.freezeFrom n p t depth).Confined S n (RadixIndex.Tree.Within S) := by
  induction t generalizing depth with
  | empty => exact .pure trivial
  | leaf r => exact .pure ht
  | node h c ih =>
      have hnd : (RadixIndex.Node.mk h c).Within S := ⟨ht⟩
      rw [Dynamic.Asking.freezeFrom]
      refine .bind hnd.fullStem_confined fun stem _ => ?_
      refine .bind (P := fun entries => ∀ e ∈ entries, e.2.Within S) (.mapM ?_) ?_
      · rintro ⟨b, slot⟩ _
        cases slot with
        | none => exact .pure trivial
        | some i => exact .bind (ih i (ht i)) fun t' ht' => .pure ht'
      · intro entries hentries
        refine .bind (.liftM fun _ h => Loose.make_within hentries h) fun l hl => ?_
        exact .pure (hl.pack p).toTree

theorem Tree.getFrom_confined {key : Key} (hk : key.length = n) {t : Tree} (ht : t.Within S)
    {depth : Nat} : (Asking.getFrom key t depth).Confined S n fun _ => True := by
  induction t generalizing depth with
  | empty => exact .pure trivial
  | leaf r =>
      refine .bind (RadixIndex.Asking.matchesFrom_confined hk ht) fun hit _ => ?_
      split <;> exact .pure trivial
  | node h c ih =>
      rw [Asking.getFrom]
      split
      · dsimp only
        split
        · exact .pure trivial
        · split
          · exact .pure trivial
          · exact ih _ (ht _)
      · exact .pure trivial

/-! ## Merging -/

namespace Asking.Merging

variable {m : Merging} {stem : Key} {x : Tree × Nat}

theorem assemble_within {parts : List (UInt8 × Tree × Nat)} (h : ∀ e ∈ parts, e.2.1.Within S)
    (hx : m.assemble stem parts = .ok x) : x.1.Within S := by
  have hentries : ∀ e ∈ parts.map fun e => (e.1, e.2.1), e.2.Within S := by
    intro e he
    obtain ⟨e', he', rfl⟩ := List.mem_map.mp he
    exact h e' he'
  obtain ⟨l, hl, hx⟩ := bind_eq_ok.mp hx
  exact Except.ok.inj hx ▸ (Loose.make_within hentries hl).settle

theorem fork_within {a b : UInt8} {s t : Tree} (hs : s.Within S) (ht : t.Within S)
    (hx : m.fork stem a s b t = .ok x) : x.1.Within S := by
  rw [fork] at hx
  split at hx
  · refine assemble_within ?_ hx
    simp [hs, ht]
  · refine assemble_within ?_ hx
    simp [hs, ht]

theorem join_confined {ι κ : Type} {newer : ι → Tree} {older : κ → Tree}
    {both : ι → κ → Asking (Tree × Nat)} {xs : List (UInt8 × ι)} {ys : List (UInt8 × κ)}
    (hnewer : ∀ i, (newer i).Within S) (holder : ∀ j, (older j).Within S)
    (hboth : ∀ i j, (both i j).Confined S n fun a => a.1.Within S) :
    (m.join stem newer older both xs ys).Confined S n fun a => a.1.Within S := by
  refine .bind (P := fun parts => ∀ e ∈ parts, e.2.1.Within S) (.mapM ?_) ?_
  · rintro ⟨b, pairing⟩ _
    cases pairing with
    | left i => exact .pure (Tree.within_settled (hnewer i))
    | right j => exact .pure (Tree.within_settled (holder j))
    | both i j => exact .bind (hboth i j) fun a ha => .pure ha
  · exact fun parts hparts => .liftM fun _ hx => assemble_within hparts hx

theorem mergeLeaves_confined {newer older : Record} (hnewer : newer ∈ S) (holder : older ∈ S)
    {depth : Nat} :
    (m.mergeLeaves newer older depth).Confined S m.keyLength fun a => a.1.Within S := by
  have hs : (.leaf newer : Tree).Within S := hnewer
  have ht : (.leaf older : Tree).Within S := holder
  rw [mergeLeaves]
  refine .bind (.load hnewer) fun newerKey _ => ?_
  refine .bind (.load holder) fun olderKey _ => ?_
  refine .bind (.any _) fun suffix _ => ?_
  dsimp only
  split
  · exact .pure hs
  · refine .bind (.any _) fun stem _ => ?_
    refine .bind (.any _) fun a _ => ?_
    refine .bind (.any _) fun b _ => ?_
    exact .liftM fun _ hx => fork_within hs ht hx

theorem mergeLeaf_confined {r : Record} (hr : r ∈ S) (newer : Bool) {t : Tree}
    (ht : t.Within S) {depth : Nat} :
    (m.mergeLeaf r newer t depth).Confined S m.keyLength fun a => a.1.Within S := by
  have hleaf : (.leaf r : Tree).Within S := hr
  induction t generalizing depth with
  | empty => exact .pure hleaf
  | leaf s =>
      cases newer with
      | true => exact mergeLeaves_confined hr ht
      | false => exact mergeLeaves_confined ht hr
  | node h c ih =>
      rw [mergeLeaf]
      refine .bind (.load hr) fun key _ => ?_
      refine .bind (.any _) fun path _ => ?_
      refine .bind (.any _) fun byte _ => ?_
      dsimp only
      split
      · exact .liftM fun _ hx =>
          fork_within hleaf (Tree.within_settled (Tree.within_withStem ht _)) hx
      · exact join_confined (fun _ => hleaf) ht fun _ i => ih i (ht i)

/-! ### Two nodes

Where the stems part decides which children are lined up. -/

section Nodes

variable {h h' : Header} {c : Fin (NodeHeader.width h) → Tree}
  {c' : Fin (NodeHeader.width h') → Tree} {a b : UInt8} {rest rest' : Key} {depth common : Nat}
  (hc : common = Key.commonLength h.stem h'.stem)

include hc

theorem merge_join (hs : h.stem.drop common = []) (hs' : h'.stem.drop common = []) :
    m.merge (.node h c) (.node h' c') depth =
      m.join (h.stem.take common) c c' (fun i j => m.merge (c i) (c' j) (depth + common + 1))
        (NodeHeader.slots h fun i => !(c i).isEmpty)
        (NodeHeader.slots h' fun j => !(c' j).isEmpty) := by
  subst hc
  rw [merge]
  split <;> simp_all

theorem merge_join_older (hs : h.stem.drop common = []) (hs' : h'.stem.drop common = b :: rest) :
    m.merge (.node h c) (.node h' c') depth =
      m.join (h.stem.take common) c (fun () => Node.withStem ⟨h', c'⟩ rest)
        (fun i () => m.merge (c i) (Node.withStem ⟨h', c'⟩ rest) (depth + common + 1))
        (NodeHeader.slots h fun i => !(c i).isEmpty) [(b, ())] := by
  subst hc
  rw [merge]
  split <;> simp_all

theorem merge_join_newer (hs : h.stem.drop common = a :: rest) (hs' : h'.stem.drop common = []) :
    m.merge (.node h c) (.node h' c') depth =
      m.join (h.stem.take common) (fun () => Node.withStem ⟨h, c⟩ rest) c'
        (fun () j => m.merge (Node.withStem ⟨h, c⟩ rest) (c' j) (depth + common + 1))
        [(a, ())] (NodeHeader.slots h' fun j => !(c' j).isEmpty) := by
  subst hc
  rw [merge]
  split <;> simp_all

theorem merge_fork (hs : h.stem.drop common = a :: rest)
    (hs' : h'.stem.drop common = b :: rest') :
    m.merge (.node h c) (.node h' c') depth =
      MonadLiftT.monadLift (m.fork (h.stem.take common)
        a (Tree.settled m.policy (Node.withStem ⟨h, c⟩ rest))
        b (Tree.settled m.policy (Node.withStem ⟨h', c'⟩ rest'))) := by
  subst hc
  rw [merge]
  split <;> simp_all

end Nodes

theorem merge_confined (m : Merging) {s t : Tree} (hs : s.Within S) (ht : t.Within S)
    {depth : Nat} :
    (m.merge s t depth).Confined S m.keyLength fun a => a.1.Within S := by
  induction s, t, depth using Merging.merge.induct with
  | case1 depth t =>
      rw [merge.eq_1]
      exact .pure (Tree.within_settled ht)
  | case2 depth s hne =>
      rw [merge.eq_2 _ _ _ hne]
      exact .pure (Tree.within_settled hs)
  | case3 depth r t hne =>
      rw [merge.eq_3 _ t _ r hne]
      exact mergeLeaf_confined hs true ht
  | case4 depth s r hne hnode =>
      rw [merge.eq_4 _ s _ r hne hnode]
      exact mergeLeaf_confined ht false hs
  | case5 depth h c h' c' common below hrest hrest' =>
      rename_i ih
      rw [merge_join rfl hrest hrest']
      exact join_confined hs ht fun i j => ih i j (hs i) (ht j)
  | case6 depth h c h' c' common below b rest hrest hrest' longer =>
      rename_i ih
      have hlonger : longer.Within S := Tree.within_withStem ht rest
      rw [merge_join_older rfl hrest hrest']
      exact join_confined hs (fun _ => hlonger) fun i _ => ih i (hs i) hlonger
  | case7 depth h c h' c' common below a rest hrest hrest' longer =>
      rename_i ih
      have hlonger : longer.Within S := Tree.within_withStem hs rest
      rw [merge_join_newer rfl hrest hrest']
      exact join_confined (fun _ => hlonger) ht fun _ j => ih j hlonger (ht j)
  | case8 depth h c h' c' common a rest b rest' hrest =>
      rename_i hrest'
      rw [merge_fork rfl hrest hrest']
      exact .liftM fun _ hx => fork_within (Tree.within_settled (Tree.within_withStem hs rest))
        (Tree.within_settled (Tree.within_withStem ht rest')) hx

end Asking.Merging

end Static

/-! ## Whole trees -/

/-- The tree is for keys of `n` bytes, and all that is in it is of the set. -/
structure StaticTree.Within (S : Set Record) (n : Nat) (t : StaticTree) : Prop where
  keyLength_eq : t.keyLength = n
  root : t.root.Within S

theorem StaticTree.within_empty (S : Set Record) (n : Nat) : (empty n).Within S n :=
  ⟨rfl, trivial⟩

section Trees

variable {S S' : Set Record} {n : Nat} {p : ShapePolicy}

theorem StaticTree.Within.mono {t : StaticTree} (hS : S ⊆ S') (ht : t.Within S n) :
    t.Within S' n :=
  ⟨ht.keyLength_eq, ht.root.mono hS⟩

theorem DynamicTree.Within.freeze_confined {t : DynamicTree} (ht : t.Within S n) :
    (Dynamic.Asking.freeze t p).Confined S n fun a => a.1.Within S n ∧ a.2.Within S n := by
  rw [Dynamic.Asking.freeze, ht.keyLength_eq]
  refine .bind (freezeFrom_confined ht.root) fun root hroot => ?_
  exact .pure ⟨⟨rfl, hroot⟩, within_empty S n⟩

theorem StaticTree.Within.merge_confined {newer older : StaticTree} (h : newer.Within S n)
    (h' : older.Within S n) :
    (Static.Asking.merge newer older p).Confined S n fun a => a.1.Within S n := by
  rw [Static.Asking.merge, h'.keyLength_eq]
  split
  · exact .stop .keyLength
  · let m : Static.Asking.Merging := ⟨n, p⟩
    refine .bind (m.merge_confined h.root h'.root) fun a ha => ?_
    dsimp only
    split
    · exact .stop .underflow
    · exact .pure ⟨rfl, ha⟩

end Trees

end RadixIndex
