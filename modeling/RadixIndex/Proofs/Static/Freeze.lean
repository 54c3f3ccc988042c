/-
# Freezing keeps the records

A frozen tree has the records of the dynamic tree, in the same places.  Each node
gets its whole stem from one of its leaves and its children from the slots of the
dynamic node, so the bytes stay in order and packing answers.  The nodes stay the
same nodes, one by one, with as many children and stems as long.
-/
import RadixIndex.Proofs.Dynamic.Firm
import RadixIndex.Proofs.Histogram
import RadixIndex.Proofs.Static.Formed
import RadixIndex.Proofs.Stem
import RadixIndex.Static.Freeze

namespace RadixIndex

open Static

namespace Static

variable {Q : Node → Prop} {L : Loader} {n : Nat} {path stem : Key} {p : ShapePolicy}

/-- What the tree `t` at the end of `path` becomes: a formed tree with the same records,
whose nodes have as many children and stems as long. -/
structure Frozen (Q : Node → Prop) (L : Loader) (n : Nat) (path : Key) (t : Dynamic.Tree)
    (t' : Tree) : Prop where
  formed : Tree.Formed Q L n path t'
  records_eq : t'.records = t.records
  alike : List.Forall₂ RadixIndex.Node.Alike t.nodes t'.nodes

/-- What the child `e` becomes stands under the same byte. -/
structure FrozenChild (Q : Node → Prop) (L : Loader) (n : Nat) (path : Key)
    (e : UInt8 × Dynamic.Tree) (e' : UInt8 × Tree) : Prop where
  byte_eq : e'.1 = e.1
  frozen : Frozen Q L n (path ++ [e.1]) e.2 e'.2

/-- A node that keeps the stem and has as many children is alike. -/
theorem Loose.Makes.alike {nd : Dynamic.Node} (hnd : nd.Stands L n path stem)
    {entries : List (UInt8 × Tree)} {nd' : Node} (h : (Loose.mk stem entries).Makes nd')
    (hlength : nd.children.length = entries.length) : nd.Alike nd' := by
  constructor
  · rw [h.sound.count_eq_length, h.children_eq, hnd.sound.count_eq_length, hlength]
  · rw [← hnd.spells.length]
    exact congrArg List.length h.stem_eq

theorem make_of_frozen {nd : Dynamic.Node} (hnd : nd.Stands L n path stem)
    (hQ : ∀ l : Loose, l.Proper → Q (l.pack p)) {entries : List (UInt8 × Tree)}
    (h : List.Forall₂ (FrozenChild Q L n (path ++ stem)) nd.children entries) :
    Loose.make stem entries = .ok ⟨stem, entries⟩ ∧
      Frozen Q L n path nd.toTree ((Loose.mk stem entries).pack p).toTree := by
  have hbytes : nd.children.map Prod.fst = entries.map Prod.fst :=
    map_eq_of_forall₂ h fun _ _ he => he.byte_eq.symm
  have hordered : OrderedBy Prod.fst entries := by
    rw [← ascending_map_fst, ← hbytes, ascending_map_fst]
    exact hnd.sound.children_ordered
  have hformed : ∀ e ∈ entries, Tree.Formed Q L n (path ++ stem ++ [e.1]) e.2 := by
    intro e he
    obtain ⟨e', -, hfrozen⟩ := exists_of_forall₂ h he
    exact hfrozen.byte_eq ▸ hfrozen.frozen.formed
  have hproper : (Loose.mk stem entries).Proper :=
    ⟨hordered, fun e he => (hformed e he).fits.ne_empty⟩
  have hmakes := Loose.pack_makes hproper p
  refine ⟨if_pos (ascending_map_fst.mpr hordered), ?_, ?_, ?_⟩
  · exact hmakes.formed (h.length_eq ▸ hnd.two_le) (hQ _ hproper) hformed
  · rw [hmakes.records_eq, RadixIndex.Node.toTree, RadixIndex.Tree.records_node]
    exact (flatMap_eq_of_forall₂ h fun _ _ he => he.frozen.records_eq.symm).symm
  · rw [RadixIndex.Node.toTree, RadixIndex.Node.toTree, RadixIndex.Tree.nodes_node,
      RadixIndex.Tree.nodes_node]
    have hbelow := List.rel_flatMap h fun _ _ he => he.frozen.alike
    exact .cons (hmakes.alike hnd h.length_eq) (hmakes.children_eq ▸ hbelow)

theorem freezeFrom_node {h : Dynamic.Header} {c : Fin (NodeHeader.width h) → Dynamic.Tree}
    (hnd : (RadixIndex.Node.mk h c).Stands L n path stem) :
    Dynamic.Tree.freezeFrom L n p (.node h c) path.length = (do
      let entries ← (RadixIndex.Node.mk h c).children.mapM fun e => do
        return (e.1, ← Dynamic.Tree.freezeFrom L n p e.2 (path.length + stem.length + 1))
      return ((← Loose.make stem entries).pack p).toTree) := by
  rw [Dynamic.Tree.freezeFrom, hnd.rooted.fullStem_eq, ok_bind,
    Dynamic.Node.emptying_eq hnd.sound.apart fun _ _ => List.not_mem_nil, List.mapM_map,
    RadixIndex.Node.children, List.mapM_map]
  rfl

/-- Freezing a tree that fits its place answers. -/
theorem freezeFrom_ok (hQ : ∀ l : Loose, l.Proper → Q (l.pack p)) {t : Dynamic.Tree}
    (ht : t.Fits L n path) :
    ∃ t', Dynamic.Tree.freezeFrom L n p t path.length = .ok t' ∧ Frozen Q L n path t t' := by
  induction ht with
  | leaf hp => exact ⟨_, rfl, Tree.formed_leaf hp, rfl, .nil⟩
  | @node path stem h c hsound hspells htwo hbelow ih =>
      have hnd : (RadixIndex.Node.mk h c).Stands L n path stem := ⟨hsound, hspells, htwo, hbelow⟩
      have hchild : ∀ e ∈ (RadixIndex.Node.mk h c).children, ∃ e', (do
          return (e.1, ← Dynamic.Tree.freezeFrom L n p e.2 (path.length + stem.length + 1))) =
            Except.ok e' ∧ FrozenChild Q L n (path ++ stem) e e' := by
        intro e he
        obtain ⟨t', hfreeze, hfrozen⟩ := ih e he
        rw [Key.length_below] at hfreeze
        refine ⟨(e.1, t'), ?_, rfl, hfrozen⟩
        rw [hfreeze]
        rfl
      obtain ⟨entries, hmapM, hentries⟩ := mapM_ok hchild
      obtain ⟨hmake, hfrozen⟩ := make_of_frozen hnd hQ hentries
      refine ⟨_, ?_, hfrozen⟩
      rw [freezeFrom_node hnd, hmapM, ok_bind, hmake]
      rfl

end Static

end RadixIndex
