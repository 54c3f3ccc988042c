/-
# What a merge makes

`Merged` says what a merged tree is: formed, with the records of the newer side and
those of the older side whose keys the newer one lacks, and with as many keys in
common as are missing in the count.  It is said of the lists of records on either
side, so that it holds alike of trees, of single leaves, and of children that only
one side has.

A node put together from parts that are merged is merged (`assemble_ok`).  The parts
stand under different bytes, so a key that both sides have is in one part.  Both a
fork and two lists of children merged byte by byte are such nodes (`fork_ok`,
`join_ok`).

While trees are merged, the root of a tree may be loose (`Ready`).
-/
import RadixIndex.Proofs.Answers
import RadixIndex.Proofs.Static.Align
import RadixIndex.Proofs.Static.Formed
import Mathlib.Algebra.BigOperators.Group.List.Basic
import Mathlib.Algebra.GroupWithZero.Nat

namespace RadixIndex.Static

/-- Packing under the policy gives the property, and loose nodes lack it. -/
structure Suits (Q : Node → Prop) (p : ShapePolicy) : Prop where
  pack : ∀ l : Loose, l.Proper → Q (l.pack p)
  not_loose : ∀ nd, Q nd → nd.header.isLoose = false

theorem suits_isPacked (p : ShapePolicy) : Suits Node.IsPacked p :=
  ⟨fun l _ => ⟨l, p, rfl⟩, fun _ ⟨l, p, h⟩ => h ▸ l.isLoose_pack p⟩

/-- The tree is formed, or its root is loose and what is below it is formed. -/
inductive Tree.Ready (Q : Node → Prop) (L : Loader) (n : Nat) (path : Key) : Tree → Prop
  | formed {t : Tree} : Tree.Formed Q L n path t → Ready Q L n path t
  | loose {l : Loose} : l.Proper → 2 ≤ l.entries.length →
      (∀ e ∈ l.entries, Tree.Formed Q L n (path ++ l.stem ++ [e.1]) e.2) →
        Ready Q L n path l.toNode.toTree

section Settling

variable {Q : Node → Prop} {L : Loader} {n : Nat} {path : Key} {p : ShapePolicy}

theorem Loose.settle_of_two_le {l : Loose} (h : 2 ≤ l.entries.length) :
    l.settle p = (l.pack p).toTree := by
  rw [Loose.settle]
  split
  · rename_i hl
    simp [hl] at h
  · rename_i hl
    simp [hl] at h
  · rfl

theorem Tree.settled_formed (hQ : Suits Q p) {t : Tree} (ht : Tree.Formed Q L n path t) :
    Tree.settled p t = t := by
  cases t with
  | empty => rfl
  | leaf r => rfl
  | node h c =>
      obtain ⟨-, hroot, -⟩ := formed_node ht
      have hloose : h.isLoose = false := hQ.not_loose _ hroot
      rw [Tree.settled, hloose]
      rfl

/-- Settling makes a tree that is ready formed, and keeps its records. -/
theorem Tree.Ready.settled (hQ : Suits Q p) {t : Tree} (ht : Tree.Ready Q L n path t) :
    Tree.Formed Q L n path (Tree.settled p t) ∧ (Tree.settled p t).records = t.records := by
  cases ht with
  | formed ht => rw [settled_formed hQ ht]; exact ⟨ht, rfl⟩
  | @loose l hl htwo hbelow =>
      have hloose := l.toNode_makes hl
      have hpack := l.pack_makes hl p
      have hsettled : Tree.settled p l.toNode.toTree = (l.pack p).toTree := by
        have hsame : (RadixIndex.Node.children l.toNode).map
            (fun e => (e.1, Tree.settled p e.2)) = l.entries := by
          rw [hloose.children_eq]
          refine (List.map_congr_left ?_).trans (List.map_id _)
          intro e he
          rw [settled_formed hQ (hbelow e he)]
          rfl
        rw [RadixIndex.Node.children, List.map_map] at hsame
        rw [Loose.toNode, RadixIndex.Node.build_eq] at hsame ⊢
        rw [RadixIndex.Node.toTree, Tree.settled]
        show Loose.settle p ⟨l.stem, _⟩ = _
        rw [← Loose.settle_of_two_le htwo]
        exact congrArg (fun entries => Loose.settle p ⟨l.stem, entries⟩) hsame
      rw [hsettled, hpack.records_eq, hloose.records_eq]
      exact ⟨hpack.formed htwo (hQ.pack l hl) hbelow, rfl⟩

/-- What is known of a node that is ready. -/
theorem Tree.ready_node {h : Header} {c : Fin (NodeHeader.width h) → Tree}
    (ht : Tree.Ready Q L n path (.node h c)) :
    (RadixIndex.Node.mk h c).Stands L n path h.stem ∧
      ∀ e ∈ (RadixIndex.Node.mk h c).children, Tree.Formed Q L n (path ++ h.stem ++ [e.1]) e.2 := by
  generalize hnode : RadixIndex.Tree.node h c = t at ht
  cases ht with
  | formed ht =>
      subst hnode
      obtain ⟨hstands, -, hbelow⟩ := formed_node ht
      exact ⟨hstands, hbelow⟩
  | @loose l hl htwo hbelow =>
      have hmakes := l.toNode_makes hl
      rw [RadixIndex.Node.toTree] at hnode
      obtain ⟨hh, hc⟩ := RadixIndex.Tree.node.inj hnode
      subst hh
      obtain rfl := eq_of_heq hc
      rw [hmakes.stem_eq]
      refine ⟨hmakes.stands htwo fun e he => (hbelow e he).fits, ?_⟩
      intro e he
      exact hbelow e (hmakes.children_eq ▸ he)

theorem Tree.Ready.fits {t : Tree} (ht : Tree.Ready Q L n path t) : t.Fits L n path := by
  cases ht with
  | formed ht => exact ht.fits
  | @loose l hl htwo hbelow =>
      exact ((l.toNode_makes hl).stands htwo fun e he => (hbelow e he).fits).fits

/-- A node with a part of its stem taken off is ready where the rest begins. -/
theorem Node.ready_withStem {nd : Node} {path' rest : Key} (hnd : nd.Stands L n path nd.header.stem)
    (hbelow : ∀ e ∈ RadixIndex.Node.children nd,
      Tree.Formed Q L n (path ++ nd.header.stem ++ [e.1]) e.2)
    (hpath : path' ++ rest = path ++ nd.header.stem) :
    Tree.Ready Q L n path' (Node.withStem nd rest) ∧
      (Node.withStem nd rest).records = nd.toTree.records := by
  have hl : (Loose.mk rest (RadixIndex.Node.children nd)).Proper :=
    ⟨hnd.sound.children_ordered, fun _ he => hnd.sound.child_ne_empty he⟩
  refine ⟨.loose hl hnd.two_le ?_, ?_⟩
  · rw [← hpath] at hbelow
    exact hbelow
  · rw [Node.withStem, (Loose.toNode_makes hl).records_eq, RadixIndex.Node.toTree,
      RadixIndex.Tree.records_node]

end Settling

/-! ## Merged trees -/

/-- The tree `t` has the records of the newer side and those of the older side whose
keys the newer side lacks; `common` keys are on both sides. -/
structure Merged (Q : Node → Prop) (m : Merger) (path : Key) (newer older : List Record)
    (t : Tree) (common : Nat) : Prop where
  formed : Tree.Formed Q m.loader m.keyLength path t
  mem : ∀ x, x ∈ t.records ↔ x ∈ newer ∨ x ∈ older ∧
    ∀ y ∈ newer, m.loader.load y m.keyLength ≠ m.loader.load x m.keyLength
  length : t.records.length + common = newer.length + older.length

variable {Q : Node → Prop} {m : Merger} {path stem : Key}

namespace Merged

variable {newer older newer' older' : List Record} {t : Tree} {common : Nat}

theorem of_perm (h : Merged Q m path newer older t common) (hn : newer.Perm newer')
    (ho : older.Perm older') : Merged Q m path newer' older' t common := by
  refine ⟨h.formed, ?_, ?_⟩
  · intro x
    rw [h.mem, hn.mem_iff, ho.mem_iff]
    simp only [hn.mem_iff]
  · rw [h.length, hn.length_eq, ho.length_eq]

/-- What only the newer side has. -/
theorem left (h : Tree.Formed Q m.loader m.keyLength path t) :
    Merged Q m path t.records [] t 0 :=
  ⟨h, fun _ => ⟨Or.inl, fun h => h.resolve_right fun h => List.not_mem_nil h.1⟩, rfl⟩

/-- What only the older side has. -/
theorem right (h : Tree.Formed Q m.loader m.keyLength path t) :
    Merged Q m path [] t.records t 0 := by
  refine ⟨h, fun x => ⟨fun hx => Or.inr ⟨hx, fun _ hy => absurd hy List.not_mem_nil⟩, ?_⟩, ?_⟩
  · rintro (hx | ⟨hx, -⟩)
    · exact absurd hx List.not_mem_nil
    · exact hx
  · rw [List.length_nil, Nat.zero_add]
    rfl

/-- The keys of both sides begin with the path. -/
theorem path_of_newer (h : Merged Q m path newer older t common) {x : Record} (hx : x ∈ newer) :
    path <+: m.loader.load x m.keyLength :=
  h.formed.fits.path_of_mem ((h.mem x).mpr (Or.inl hx))

theorem path_of_older (h : Merged Q m path newer older t common) {x : Record} (hx : x ∈ older) :
    path <+: m.loader.load x m.keyLength := by
  by_cases hno : ∀ y ∈ newer, m.loader.load y m.keyLength ≠ m.loader.load x m.keyLength
  · exact h.formed.fits.path_of_mem ((h.mem x).mpr (Or.inr ⟨hx, hno⟩))
  · obtain ⟨y, hno⟩ := Classical.not_forall.mp hno
    obtain ⟨hy, hsame⟩ := Classical.not_imp.mp hno
    exact Classical.not_not.mp hsame ▸ h.path_of_newer hy

end Merged

/-! ## Nodes of merged parts -/

/-- One byte with what either side has below it. -/
abbrev Sides := UInt8 × List Record × List Record

/-- The part is what the two sides merge to under their byte. -/
def IsPart (Q : Node → Prop) (m : Merger) (path : Key) (e : Sides) (p : UInt8 × Tree × Nat) :
    Prop :=
  p.1 = e.1 ∧ Merged Q m (path ++ [e.1]) e.2.1 e.2.2 p.2.1 p.2.2

section Assemble

variable {es : List Sides} {parts : List (UInt8 × Tree × Nat)}

theorem mem_parts (hord : OrderedBy Prod.fst es)
    (h : List.Forall₂ (IsPart Q m (path ++ stem)) es parts) (x : Record) :
    (∃ p ∈ parts, x ∈ p.2.1.records) ↔ x ∈ es.flatMap (fun e => e.2.1) ∨
      x ∈ es.flatMap (fun e => e.2.2) ∧ ∀ y ∈ es.flatMap (fun e => e.2.1),
        m.loader.load y m.keyLength ≠ m.loader.load x m.keyLength := by
  rw [← exists_mem_iff_of_forall₂ h fun e p hp => ((hp.2.mem x).symm)]
  constructor
  · rintro ⟨e, he, hx | ⟨hx, hno⟩⟩
    · exact Or.inl (List.mem_flatMap.mpr ⟨e, he, hx⟩)
    · refine Or.inr ⟨List.mem_flatMap.mpr ⟨e, he, hx⟩, ?_⟩
      intro y hy hsame
      obtain ⟨e', he', hy⟩ := List.mem_flatMap.mp hy
      obtain ⟨p, -, hp⟩ := exists_of_forall₂ h.flip he
      obtain ⟨p', -, hp'⟩ := exists_of_forall₂ h.flip he'
      -- A key that both sides have is under one byte.
      have hbyte : e'.1 = e.1 :=
        Key.byte_unique (hsame ▸ hp'.2.path_of_newer hy) (hp.2.path_of_older hx)
      obtain rfl := hord.unique he' he hbyte
      exact hno y hy hsame
  · rintro (hx | ⟨hx, hno⟩)
    · obtain ⟨e, he, hx⟩ := List.mem_flatMap.mp hx
      exact ⟨e, he, Or.inl hx⟩
    · obtain ⟨e, he, hx⟩ := List.mem_flatMap.mp hx
      exact ⟨e, he, Or.inr ⟨hx, fun y hy => hno y (List.mem_flatMap.mpr ⟨e, he, hy⟩)⟩⟩

theorem length_parts (h : List.Forall₂ (IsPart Q m (path ++ stem)) es parts) :
    (parts.flatMap fun p => p.2.1.records).length + (parts.map fun p => p.2.2).sum =
      (es.flatMap fun e => e.2.1).length + (es.flatMap fun e => e.2.2).length := by
  simp only [List.length_flatMap]
  rw [← List.sum_map_add, ← List.sum_map_add]
  exact congrArg List.sum (map_eq_of_forall₂ h fun _ _ hp => hp.2.length.symm).symm

/-- A node of two parts or more is put together without a fault, and is merged when
its parts are. -/
theorem assemble_ok (hQ : Suits Q m.policy) (es : List Sides) (hord : OrderedBy Prod.fst es)
    (htwo : 2 ≤ es.length) (h : List.Forall₂ (IsPart Q m (path ++ stem)) es parts) :
    ∃ t common, m.assemble stem parts = .ok (t, common) ∧
      Merged Q m path (es.flatMap fun e => e.2.1) (es.flatMap fun e => e.2.2) t common := by
  have hbytes : (parts.map fun p => (p.1, p.2.1)).map Prod.fst = es.map Prod.fst := by
    rw [List.map_map]
    exact (map_eq_of_forall₂ h fun _ _ hp => hp.1.symm).symm
  have hordered : OrderedBy Prod.fst (parts.map fun p => (p.1, p.2.1)) := by
    rw [← ascending_map_fst, hbytes, ascending_map_fst]
    exact hord
  have hformed : ∀ e ∈ parts.map fun p => (p.1, p.2.1),
      Tree.Formed Q m.loader m.keyLength (path ++ stem ++ [e.1]) e.2 := by
    intro e he
    obtain ⟨p, hp, rfl⟩ := List.mem_map.mp he
    obtain ⟨e', -, hbyte, hmerged⟩ := exists_of_forall₂ h hp
    exact hbyte ▸ hmerged.formed
  have hproper : (Loose.mk stem (parts.map fun p => (p.1, p.2.1))).Proper :=
    ⟨hordered, fun e he => (hformed e he).fits.ne_empty⟩
  have hlength : 2 ≤ (Loose.mk stem (parts.map fun p => (p.1, p.2.1))).entries.length := by
    rw [List.length_map, ← h.length_eq]
    exact htwo
  have hmakes := Loose.pack_makes hproper m.policy
  have hrecords := hmakes.records_eq
  rw [List.flatMap_map] at hrecords
  refine ⟨_, (parts.map fun p => p.2.2).sum, ?_, hmakes.formed hlength (hQ.pack _ hproper) hformed,
    fun x => ?_, ?_⟩
  · rw [Merger.assemble, Loose.make, if_pos (ascending_map_fst.mpr hordered), ok_bind,
      Loose.settle_of_two_le hlength]
    rfl
  · rw [hrecords, List.mem_flatMap]
    exact mem_parts hord h x
  · rw [hrecords]
    exact length_parts h

end Assemble

/-- Two trees under different bytes, in whichever order the bytes come. -/
theorem fork_ok (hQ : Suits Q m.policy) {a b : UInt8} (hab : a ≠ b)
    {newer older newer' older' : List Record} {s t : Tree}
    (hs : Merged Q m (path ++ stem ++ [a]) newer older s 0)
    (ht : Merged Q m (path ++ stem ++ [b]) newer' older' t 0) :
    ∃ u common, m.fork stem a s b t = .ok (u, common) ∧
      Merged Q m path (newer ++ newer') (older ++ older') u common := by
  rw [Merger.fork]
  split
  · rename_i hlt
    have hparts : List.Forall₂ (IsPart Q m (path ++ stem))
        [(a, newer, older), (b, newer', older')] [(a, s, 0), (b, t, 0)] :=
      .cons ⟨rfl, hs⟩ (.cons ⟨rfl, ht⟩ .nil)
    obtain ⟨u, common, heq, hmerged⟩ := assemble_ok hQ _ (by simpa [OrderedBy] using hlt)
      (by simp) hparts
    exact ⟨u, common, heq, by simpa using hmerged⟩
  · rename_i hlt
    have hlt : b < a := UInt8.lt_of_le_of_ne (UInt8.not_lt.mp hlt) (Ne.symm hab)
    have hparts : List.Forall₂ (IsPart Q m (path ++ stem))
        [(b, newer', older'), (a, newer, older)] [(b, t, 0), (a, s, 0)] :=
      .cons ⟨rfl, ht⟩ (.cons ⟨rfl, hs⟩ .nil)
    obtain ⟨u, common, heq, hmerged⟩ := assemble_ok hQ _ (by simpa [OrderedBy] using hlt)
      (by simp) hparts
    refine ⟨u, common, heq, hmerged.of_perm ?_ ?_⟩
    · simpa using List.perm_append_comm
    · simpa using List.perm_append_comm

/-! ## Children merged byte by byte

A leaf may be merged into a newer tree as well as into an older one, so it is left
open here which of two lists is the newer side. -/

/-- The records `xs` and `ys` merged, with `xs` as the newer side if `newer` says so. -/
def MergedAs (Q : Node → Prop) (m : Merger) (path : Key) :
    (newer : Bool) → (xs ys : List Record) → Tree → Nat → Prop
  | true, xs, ys => Merged Q m path xs ys
  | false, xs, ys => Merged Q m path ys xs

/-- The newer and the older side of what two lists have for a byte. -/
def Pairing.sides (newer : Bool) (e : UInt8 × Pairing Tree Tree) : Sides :=
  (e.1, bif newer then (e.2.lefts Tree.records, e.2.rights Tree.records)
    else (e.2.rights Tree.records, e.2.lefts Tree.records))

/-- The part for a byte: what one list has alone is settled, what both have is merged. -/
def Merger.part (m : Merger) (both : Tree → Tree → Merger.Result) :
    UInt8 × Pairing Tree Tree → Except Fault (UInt8 × Tree × Nat)
  | (b, .left x) => .ok (b, Tree.settled m.policy x, 0)
  | (b, .right y) => .ok (b, Tree.settled m.policy y, 0)
  | (b, .both x y) => do return (b, ← both x y)

/-- Children that may be lined up with others below `path`. -/
structure Children (Q : Node → Prop) (m : Merger) (path : Key) (xs : List (UInt8 × Tree)) :
    Prop where
  ordered : OrderedBy Prod.fst xs
  ready : ∀ e ∈ xs, Tree.Ready Q m.loader m.keyLength (path ++ [e.1]) e.2

section Join

variable {xs ys : List (UInt8 × Tree)} {newer : Bool} {both : Tree → Tree → Merger.Result}

/-- What is on one side only is settled, and is merged then. -/
theorem Tree.Ready.merged (hQ : Suits Q m.policy) {t : Tree}
    (ht : Tree.Ready Q m.loader m.keyLength path t) :
    Merged Q m path t.records [] (Tree.settled m.policy t) 0 ∧
      Merged Q m path [] t.records (Tree.settled m.policy t) 0 := by
  obtain ⟨hformed, hrecords⟩ := ht.settled hQ
  rw [← hrecords]
  exact ⟨Merged.left hformed, Merged.right hformed⟩

theorem part_ok (hQ : Suits Q m.policy) (hxs : Children Q m path xs) (hys : Children Q m path ys)
    (hboth : ∀ b x y, (b, x) ∈ xs → (b, y) ∈ ys → ∃ t common, both x y = .ok (t, common) ∧
      MergedAs Q m (path ++ [b]) newer x.records y.records t common)
    {e : UInt8 × Pairing Tree Tree} (he : e ∈ align xs ys) :
    ∃ p, m.part both e = .ok p ∧ IsPart Q m path (Pairing.sides newer e) p := by
  obtain ⟨b, pairing⟩ := e
  have hfrom := from_of_mem_align he
  cases pairing with
  | left x =>
      obtain ⟨hnewer, holder⟩ := Tree.Ready.merged hQ (hxs.ready _ hfrom)
      cases newer with
      | true => exact ⟨_, rfl, rfl, hnewer⟩
      | false => exact ⟨_, rfl, rfl, holder⟩
  | right y =>
      obtain ⟨hnewer, holder⟩ := Tree.Ready.merged hQ (hys.ready _ hfrom)
      cases newer with
      | true => exact ⟨_, rfl, rfl, holder⟩
      | false => exact ⟨_, rfl, rfl, hnewer⟩
  | both x y =>
      obtain ⟨t, common, heq, hmerged⟩ := hboth b x y hfrom.1 hfrom.2
      refine ⟨(b, t, common), by rw [Merger.part, heq]; rfl, ?_⟩
      cases newer with
      | true => exact ⟨rfl, hmerged⟩
      | false => exact ⟨rfl, hmerged⟩

/-- Two lists of children, one of which is that of a node, are merged byte by byte. -/
theorem join_ok (newer : Bool) (hQ : Suits Q m.policy) (hxs : Children Q m (path ++ stem) xs)
    (hys : Children Q m (path ++ stem) ys) (htwo : 2 ≤ xs.length ∨ 2 ≤ ys.length)
    (hboth : ∀ b x y, (b, x) ∈ xs → (b, y) ∈ ys → ∃ t common, both x y = .ok (t, common) ∧
      MergedAs Q m (path ++ stem ++ [b]) newer x.records y.records t common) :
    ∃ t common, ((align xs ys).mapM (m.part both) >>= m.assemble stem) = .ok (t, common) ∧
      MergedAs Q m path newer (xs.flatMap fun e => e.2.records)
        (ys.flatMap fun e => e.2.records) t common := by
  obtain ⟨parts, hmapM, hparts⟩ := mapM_ok fun e he => part_ok hQ hxs hys hboth he
  have hord : OrderedBy Prod.fst ((align xs ys).map (Pairing.sides newer)) :=
    List.pairwise_map.mpr (align_ordered hxs.ordered hys.ordered)
  have hlength := length_le_align xs ys
  obtain ⟨t, common, heq, hmerged⟩ := assemble_ok hQ ((align xs ys).map (Pairing.sides newer))
    hord (by rw [List.length_map]; omega) (List.forall₂_map_left_iff.mpr hparts)
  rw [List.flatMap_map, List.flatMap_map] at hmerged
  refine ⟨t, common, by rw [hmapM, ok_bind, heq], ?_⟩
  rw [← flatMap_lefts xs ys, ← flatMap_rights xs ys]
  cases newer with
  | true => exact hmerged
  | false => exact hmerged

end Join

end RadixIndex.Static
