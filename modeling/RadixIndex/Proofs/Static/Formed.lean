/-
# Formed trees

A static tree is *formed* where it stands when it fits there and its nodes have a
property `Q` that packing gives to them.  What `Q` is does not matter to freezing
and merging: all that is used is that packed nodes have it.  Nodes of different
policies may stand in one tree, so the property that matters most is to be packed
by some policy (`IsPacked`).
-/
import RadixIndex.Proofs.Static.Loose
import RadixIndex.Static.Basic

namespace RadixIndex.Static

/-- The tree stands where `path` leads to, and its nodes have the property `Q`. -/
structure Tree.Formed (Q : Node → Prop) (L : Loader) (n : Nat) (path : Key) (t : Tree) : Prop where
  fits : t.Fits L n path
  each : t.Each Q

/-- The node is what packing makes, under some policy. -/
def Node.IsPacked (nd : Node) : Prop := ∃ (l : Loose) (p : ShapePolicy), l.pack p = nd

variable {Q : Node → Prop} {L : Loader} {n : Nat} {path stem key : Key}

theorem Tree.formed_leaf {r : Record} (h : path <+: L.load r n) :
    Tree.Formed Q L n path (.leaf r) :=
  ⟨.leaf h, RadixIndex.Tree.each_leaf r⟩

theorem Tree.formed_node {h : Header} {c : Fin (NodeHeader.width h) → Tree}
    (ht : Tree.Formed Q L n path (.node h c)) :
    (RadixIndex.Node.mk h c).Stands L n path h.stem ∧ Q ⟨h, c⟩ ∧
      ∀ e ∈ (RadixIndex.Node.mk h c).children, Tree.Formed Q L n (path ++ h.stem ++ [e.1]) e.2 := by
  obtain ⟨stem, hstands⟩ := RadixIndex.Tree.fits_node.mp ht.fits
  obtain ⟨hroot, hbelow⟩ := (RadixIndex.Tree.each_node h c).mp ht.each
  obtain rfl : h.stem = stem := Node.spells_iff.mp hstands.spells
  exact ⟨hstands, hroot, fun e he => ⟨hstands.below e he, hbelow e he⟩⟩

namespace Loose.Makes

variable {l : Loose} {nd : Node} (hm : l.Makes nd)

include hm

theorem stands (htwo : 2 ≤ l.entries.length)
    (hbelow : ∀ e ∈ l.entries, e.2.Fits L n (path ++ l.stem ++ [e.1])) :
    nd.Stands L n path l.stem :=
  ⟨hm.sound, Node.spells_iff.mpr hm.stem_eq, hm.children_eq ▸ htwo, hm.children_eq ▸ hbelow⟩

theorem records_eq : nd.toTree.records = l.entries.flatMap fun e => e.2.records := by
  rw [RadixIndex.Node.toTree, RadixIndex.Tree.records_node]
  exact congrArg _ hm.children_eq

theorem formed (htwo : 2 ≤ l.entries.length) (hnd : Q nd)
    (hbelow : ∀ e ∈ l.entries, Tree.Formed Q L n (path ++ l.stem ++ [e.1]) e.2) :
    Tree.Formed Q L n path nd.toTree := by
  refine ⟨(hm.stands htwo fun e he => (hbelow e he).fits).fits, ?_⟩
  refine (RadixIndex.Tree.each_node _ _).mpr ⟨hnd, ?_⟩
  intro e he
  exact (hbelow e (hm.children_eq ▸ he)).each

end Loose.Makes

/-! ## Looking up -/

namespace Tree

variable {h : Header} {c : Fin (NodeHeader.width h) → Tree}

theorem getFrom_node {depth : Nat} : getFrom L key (.node h c) depth =
    if Key.continuesWith key depth h.stem then
      (key[depth + h.stem.length]?.bind (RadixIndex.Node.find ⟨h, c⟩)).bind fun i =>
        getFrom L key (c i) (depth + h.stem.length + 1)
    else none := by
  rw [getFrom]
  split
  · dsimp only
    cases key[depth + h.stem.length]? with
    | none => rfl
    | some b =>
        dsimp only [Option.bind_some, RadixIndex.Node.find]
        cases NodeHeader.find h (fun i => !(c i).isEmpty) b <;> rfl
  · rfl

theorem getFrom_eq_some {t : Tree} (ht : t.Rooted L n path) (hk : key.length = n)
    (hp : path <+: key) {r : Record} :
    getFrom L key t path.length = some r ↔ r ∈ t.records ∧ L.load r n = key := by
  induction ht with
  | @leaf path s hs =>
      have hleaf := Loader.matchesFrom_iff hk hs hp
      rw [getFrom, RadixIndex.Tree.records_leaf, List.mem_singleton]
      by_cases hload : L.load s n = key
      · rw [if_pos (hleaf.mpr hload), Option.some.injEq, eq_comm]
        exact ⟨fun h => ⟨h, h ▸ hload⟩, And.left⟩
      · rw [if_neg fun h => hload (hleaf.mp h)]
        exact ⟨nofun, fun ⟨h, hr⟩ => absurd (h ▸ hr) hload⟩
  | @node path stem h c hsound hspells _ hbelow ih =>
      obtain rfl : h.stem = stem := Node.spells_iff.mp hspells
      rw [getFrom_node, RadixIndex.Tree.mem_records_node]
      constructor
      · intro hget
        split at hget
        · rename_i hcont
          have hstem := (Key.continuesWith_iff hp).mp hcont
          obtain ⟨i, hi, hget⟩ := Option.bind_eq_some_iff.mp hget
          obtain ⟨b, hb, hfind⟩ := Option.bind_eq_some_iff.mp hi
          rw [← List.length_append] at hb hget
          have hpath := Key.path_snoc hstem hb
          have hmem := hsound.mem_children_of_find hfind
          have hbelow := ih _ hmem hpath
          rw [List.length_append] at hbelow
          obtain ⟨hr, hload⟩ := hbelow.mp hget
          exact ⟨⟨_, hmem, hr⟩, hload⟩
        · exact absurd hget nofun
      · rintro ⟨⟨e, he, hre⟩, hload⟩
        have hpath : path ++ h.stem ++ [e.1] <+: key := hload ▸ (hbelow e he).path_of_mem hre
        obtain ⟨i, hfind, hi⟩ := hsound.exists_find he
        have hi : c i = e.2 := hi
        have hbelow := ih e he hpath
        rw [List.length_append] at hbelow
        rw [if_pos ((Key.continuesWith_iff hp).mpr (Key.prefix_of_append hpath)),
          ← List.length_append, Key.getElem?_of_path hpath, Option.bind_some, hfind,
          Option.bind_some, hi]
        exact hbelow.mpr ⟨hre, hload⟩

/-- From the root exactly the record under the key is found, also where there is no tree. -/
theorem getFrom_root {t : Tree} (ht : t = .empty ∨ t.Rooted L n []) (hk : key.length = n)
    {r : Record} : getFrom L key t 0 = some r ↔ r ∈ t.records ∧ L.load r n = key := by
  rcases ht with rfl | ht
  · exact ⟨fun h => absurd h.symm (Option.some_ne_none r), fun h => absurd h.1 List.not_mem_nil⟩
  · exact getFrom_eq_some ht hk List.nil_prefix

end Tree

end RadixIndex.Static
