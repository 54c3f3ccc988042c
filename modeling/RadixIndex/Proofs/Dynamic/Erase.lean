/-
# Erasing from a dynamic tree

Erasing a key takes the record under it out of the tree, if there is one, and
leaves the others; either way it answers (`eraseFrom_ok`).  What is left of an
inner node is firm again: if it has one child only, the child takes its place, and
the stem of the child then reaches from where the stem of the node began.

A leaf leaves nothing behind.  That can only be the root: a leaf below a node is
taken out of the node.
-/
import RadixIndex.Dynamic.Write
import RadixIndex.Proofs.Dynamic.Firm
import RadixIndex.Proofs.Stem

namespace RadixIndex.Dynamic

variable {L : Loader} {n : Nat} {path stem key : Key}

theorem Size.two_le_fanOut (size : Size) : 2 ≤ size.fanOut.1 := by
  cases size <;> decide

namespace Tree

/-! ## A tree that takes over a stem -/

/-- The tree with `stem` and `byte` before it; a leaf has no stem to go on with. -/
def joined (stem : Stem) (byte : UInt8) : Tree → Tree
  | .node h c => .node ⟨stem.join byte h.stem, h.layout⟩ c
  | t => t

theorem records_joined (s : Stem) (b : UInt8) (t : Tree) : (joined s b t).records = t.records := by
  cases t with
  | node h c => exact Node.records_withStem ⟨h, c⟩ _
  | _ => rfl

theorem recount_joined (s : Stem) (b : UInt8) (t : Tree) : (joined s b t).recount = t.recount := by
  cases t with
  | node h c => exact Node.recount_withStem ⟨h, c⟩ _
  | _ => rfl

/-- A node whose stem was cut at a byte is itself again when what was cut off is joined to it. -/
theorem joined_withStem {nd : Node} {s rest : Key} {b : UInt8}
    (h : nd.header.stem = Stem.of (s ++ b :: rest)) :
    joined (Stem.of s) b (Node.withStem nd (Stem.of rest)).toTree = nd.toTree := by
  show RadixIndex.Tree.node
    (Header.mk ((Stem.of s).join b (Stem.of rest)) nd.header.layout) nd.child = _
  rw [Stem.join_of, ← h]
  rfl

/-- A tree that stands below a stem and a byte stands in the place of both with them joined to
it. -/
theorem firm_joined {b : UInt8} {t : Tree} (ht : t.Firm L n (path ++ stem ++ [b])) :
    (joined (Stem.of stem) b t).Firm L n path := by
  cases t with
  | empty => exact absurd rfl ht.fits.ne_empty
  | leaf r =>
      have hpath := ht.fits.path_of_mem (List.mem_singleton_self r)
      exact firm_leaf (Key.prefix_of_append (Key.prefix_of_append hpath))
  | node h c =>
      obtain ⟨below, hbelow, hfirm⟩ := firm_node ht
      rw [joined, hbelow, Stem.join_of]
      have hjoined : path ++ (stem ++ b :: below) = path ++ stem ++ [b] ++ below := by simp
      exact (hfirm.withStem hjoined).toTree

end Tree

namespace Node

/-! ## One leaf less -/

/-- A leaf less in a node is no node less. -/
theorem removeChild_leaf {nd : Node} {b : UInt8} {r : Record} (hn : nd.Sound)
    (hsized : Sized nd) (hb : (b, .leaf r) ∈ nd.children) (s : Stats) :
    ∃ nd', removeChild nd b (Tree.recount nd.toTree + s) =
        .ok (.leaf r, nd', Tree.recount nd'.toTree + s) ∧
      Removed nd nd' b ∧ (Sized nd' ∨ size nd' = .four ∧ nd'.count = 1) ∧
        ((size nd).fanOut.1 ≤ nd'.count → size nd' = size nd) := by
  obtain ⟨nd', hremove, hremoved, hsizes⟩ := removeChild_ok hn hsized hb
    ((nd.children.map fun e => Tree.recount e.2).sum + s)
  refine ⟨nd', ?_, hremoved, hsizes⟩
  have hsum := ((hremoved.perm hn hb).map fun e => Tree.recount e.2).sum_eq
  rw [List.map_cons, List.sum_cons, Tree.recount_leaf, zero_add] at hsum
  rw [recount_of_perm (.refl _), add_assoc, hremove, hsum, recount_of_perm (.refl _), add_assoc]

/-! ## A node that gives way to its only child -/

/-- The tree `t` stands for the node `nd` and holds the same records. -/
structure StandsFor (L : Loader) (n : Nat) (path : Key) (nd : Node) (t : Tree) : Prop where
  firm : t.Firm L n path
  mem : ∀ x, x ∈ t.records ↔ x ∈ nd.toTree.records

theorem collapse_eq {nd : Node} {b : UInt8} {t : Tree} (hn : nd.Sound) (hfour : size nd = .four)
    (hc : nd.children = [(b, t)]) : collapse nd = .ok (Tree.joined nd.header.stem b t) := by
  have hmem : (b, t) ∈ nd.children := hc ▸ List.mem_singleton_self _
  have hone : nd.count = 1 := hn.count_eq_length.trans (congrArg List.length hc)
  obtain ⟨⟨stem', layout⟩, child⟩ := nd
  cases layout with
  | sixteen keys used => exact absurd hfour nofun
  | fortyEight table count => exact absurd hfour nofun
  | full count => exact absurd hfour nofun
  | four keys used =>
      obtain ⟨i, hi, hkey, hchild⟩ := (RadixIndex.Node.mem_children_keyed rfl).mp hmem
      have hone : used.val = 1 := hone
      obtain rfl : i = (0 : Fin 4) := Fin.ext (Nat.lt_one_iff.mp (hone ▸ hi))
      have hkey : keys[0] = b := hkey
      have hchild : child (0 : Fin 4) = t := hchild
      rw [collapse, hchild, hkey]
      cases t <;> rfl

/-- Of two children the other one is left. -/
theorem Removed.children_single {nd nd' : Node} {a b : UInt8} {t u : Tree} (h : Removed nd nd' b)
    (hn : nd.Sound) (hperm : (RadixIndex.Node.children nd).Perm [(b, u), (a, t)]) :
    RadixIndex.Node.children nd' = [(a, t)] :=
  List.perm_singleton.mp
    (((h.perm hn (hperm.mem_iff.mpr List.mem_cons_self)).symm.trans hperm).cons_inv)

/-- A node with its last child gives way to it, and is counted no more. -/
theorem settle_single {nd : Node} {b : UInt8} {t : Tree} (hn : nd.Sound) (hfour : size nd = .four)
    (hc : nd.children = [(b, t)]) (s : Stats) :
    settle nd (.one .four + s) = .ok (Tree.joined nd.header.stem b t, s) := by
  have hone : nd.count = 1 := hn.count_eq_length.trans (congrArg List.length hc)
  rw [settle, if_pos ⟨hfour, hone⟩, collapse_eq hn hfour hc, ok_bind, Stats.free_one_add]
  rfl

theorem settle_last {nd : Node} {b : UInt8} {t : Tree} (hn : nd.Sound) (hfour : size nd = .four)
    (hc : nd.children = [(b, t)]) (s : Stats) :
    settle nd (Tree.recount nd.toTree + s) =
      .ok (Tree.joined nd.header.stem b t, Tree.recount (Tree.joined nd.header.stem b t) + s) := by
  have hcount : Tree.recount nd.toTree = .one .four + Tree.recount t := by
    rw [recount_of_perm (.of_eq hc), hfour]
    simp
  rw [hcount, add_assoc, settle_single hn hfour hc, Tree.recount_joined]

theorem settle_ok {nd : Node} (hn : nd.Sound) (hstem : nd.header.stem = Stem.of stem)
    (hsized : Sized nd ∨ size nd = .four ∧ nd.count = 1)
    (hbelow : ∀ e ∈ nd.children, Tree.Firm L n (path ++ stem ++ [e.1]) e.2) (s : Stats) :
    ∃ t, settle nd (Tree.recount nd.toTree + s) = .ok (t, Tree.recount t + s) ∧
      StandsFor L n path nd t := by
  by_cases hlast : size nd = .four ∧ nd.count = 1
  · obtain ⟨⟨b, t⟩, hc⟩ := List.length_eq_one_iff.mp (hn.count_eq_length ▸ hlast.2)
    have ht := hbelow (b, t) (hc ▸ List.mem_singleton_self _)
    refine ⟨_, settle_last hn hlast.1 hc s, hstem ▸ Tree.firm_joined ht, ?_⟩
    intro x
    rw [Tree.records_joined, RadixIndex.Node.toTree, RadixIndex.Tree.mem_records_node]
    show _ ↔ ∃ e ∈ nd.children, _
    simp only [hc, List.mem_singleton, exists_eq_left]
  · rw [settle, if_neg hlast]
    have hsized : Sized nd := hsized.resolve_right hlast
    have htwo : 2 ≤ nd.children.length :=
      hn.count_eq_length ▸ Nat.le_trans (Size.two_le_fanOut _) hsized
    exact ⟨_, rfl, (firm_of_children hn hstem htwo hsized hbelow).toTree, fun _ => Iff.rfl⟩

end Node

namespace Tree

/-- What erasing a key does to a tree, when it is given the counts of the tree and
others: nothing if the key is not there, and otherwise it takes the record out. -/
def Erases (L : Loader) (n : Nat) (key path : Key) (t : Tree) (s : Stats) : Prop :=
  (∀ r ∈ t.records, L.load r n ≠ key) ∧
      eraseFrom L key t path.length (t.recount + s) = .ok none ∨
    (∃ r ∈ t.records, L.load r n = key) ∧ ∃ t',
      eraseFrom L key t path.length (t.recount + s) = .ok (some (t', t'.recount + s)) ∧
        (t.isLeaf = true ∧ t' = .empty ∨ t'.Firm L n path) ∧
          ∀ x, x ∈ t'.records ↔ x ∈ t.records ∧ L.load x n ≠ key

theorem erases_leaf {r : Record} (hr : path <+: L.load r n) (hk : key.length = n)
    (hp : path <+: key) (s : Stats) : Erases L n key path (.leaf r) s := by
  have hmatch := Loader.matchesFrom_iff hk hr hp
  rw [Erases, eraseFrom]
  simp only [RadixIndex.Tree.records_leaf, List.mem_singleton, forall_eq, exists_eq_left]
  by_cases hload : L.load r n = key
  · refine Or.inr ⟨hload, .empty, ?_, Or.inl ⟨rfl, rfl⟩, ?_⟩
    · rw [if_pos (hmatch.mpr hload)]
      rfl
    · intro x
      refine ⟨fun h => absurd h List.not_mem_nil, ?_⟩
      rintro ⟨rfl, hne⟩
      exact absurd hload hne
  · refine Or.inl ⟨hload, ?_⟩
    rw [if_neg fun h => hload (hmatch.mp h)]

section Below

variable {h : Header} {c : Fin (NodeHeader.width h) → Tree} {b : UInt8}

theorem eraseFrom_node (hnd : Node.Firm L n path stem ⟨h, c⟩) (hk : key.length = n)
    (hb : path ++ stem ++ [b] <+: key) (s : Stats) :
    eraseFrom L key (.node h c) path.length s =
      match RadixIndex.Node.find ⟨h, c⟩ b with
      | none => .ok none
      | some i =>
          if ((c i).record?.any fun r => L.matchesFrom r key (path ++ stem ++ [b]).length) then do
            let (_, nd, s) ← Node.removeChild ⟨h, c⟩ b s
            return some (← Node.settle nd s)
          else do
            return (← eraseFrom L key (c i) (path ++ stem ++ [b]).length s).map fun (t, s) =>
              (((RadixIndex.Node.mk h c).setChild i t).toTree, s) := by
  have hlen : h.stem.length = stem.length := hnd.stands.stemLength_eq
  have hstem := Key.prefix_of_append hb
  have hmatch := (Key.commonLength_stem (Key.prefix_of_append hstem)).mpr hstem
  have hbyte := Key.byteAt_of_path hb
  rw [List.length_append] at hbyte
  rw [eraseFrom, hnd.stands.rooted.stemMatch_eq hk, ok_bind, hmatch, hlen, if_neg (absurd rfl)]
  dsimp only
  rw [hbyte, ok_bind, Key.length_below, RadixIndex.Node.find]
  cases NodeHeader.find h (fun i => !(c i).isEmpty) b <;> rfl

/-- Where the byte after the stem leads to the leaf of the key, the leaf is removed. -/
theorem eraseFrom_hit {nd : Node} (hnd : Node.Firm L n path stem nd) (hk : key.length = n)
    (hb : path ++ stem ++ [b] <+: key) {r : Record} (hmem : (b, .leaf r) ∈ nd.children)
    (hload : L.load r n = key) (s : Stats) :
    ∃ nd', eraseFrom L key nd.toTree path.length (recount nd.toTree + s) =
        (do return some (← Node.settle nd' (recount nd'.toTree + s))) ∧
      Node.Removed nd nd' b ∧ (Node.Sized nd' ∨ Node.size nd' = .four ∧ nd'.count = 1) ∧
        ((Node.size nd).fanOut.1 ≤ nd'.count → Node.size nd' = Node.size nd) := by
  obtain ⟨i, hfind, hi⟩ := hnd.stands.sound.exists_find hmem
  have hmatch : L.matchesFrom r key (path ++ stem ++ [b]).length = true :=
    (Loader.matchesFrom_iff hk (hload ▸ hb) hb).mpr hload
  obtain ⟨nd', hremove, hremoved, hsizes⟩ :=
    Node.removeChild_leaf hnd.stands.sound hnd.sized hmem s
  refine ⟨nd', ?_, hremoved, hsizes⟩
  have hfind : RadixIndex.Node.find ⟨nd.header, nd.child⟩ b = some i := hfind
  rw [RadixIndex.Node.toTree, eraseFrom_node hnd hk hb, hfind]
  dsimp only
  rw [hi, RadixIndex.Tree.record?, Option.any_some, if_pos hmatch]
  show (do let (_, nd, s) ← Node.removeChild nd b (recount nd.toTree + s); _) = _
  rw [hremove]
  rfl

/-- Where the byte after the stem leads to another leaf or to a node, the key is erased below
it. -/
theorem eraseFrom_miss (hnd : Node.Firm L n path stem ⟨h, c⟩) (hk : key.length = n)
    (hb : path ++ stem ++ [b] <+: key) {i : Fin (NodeHeader.width h)}
    (hfind : RadixIndex.Node.find ⟨h, c⟩ b = some i)
    (hno : ∀ r, c i = .leaf r → L.load r n ≠ key) (s : Stats) :
    eraseFrom L key (.node h c) path.length s = (do
      return (← eraseFrom L key (c i) (path ++ stem ++ [b]).length s).map fun (t, s) =>
        (((RadixIndex.Node.mk h c).setChild i t).toTree, s)) := by
  have hmem := hnd.stands.sound.mem_children_of_find hfind
  have hmatch : ¬ ((c i).record?.any fun r => L.matchesFrom r key (path ++ stem ++ [b]).length)
      = true := by
    cases hi : c i with
    | empty => exact nofun
    | node h' c' => exact nofun
    | leaf r =>
        have hr : r ∈ (c i).records := by
          rw [hi]
          exact List.mem_singleton_self r
        have hr := (hnd.below _ hmem).fits.path_of_mem hr
        exact fun hm => hno r hi ((Loader.matchesFrom_iff hk hr hb).mp hm)
  rw [eraseFrom_node hnd hk hb, hfind]
  exact if_neg hmatch

theorem erases_child (hnd : Node.Firm L n path stem ⟨h, c⟩) (hk : key.length = n)
    (hb : path ++ stem ++ [b] <+: key) {i : Fin (NodeHeader.width h)}
    (hfind : RadixIndex.Node.find ⟨h, c⟩ b = some i) {r : Record} (hi : c i = .leaf r)
    (hload : L.load r n = key) (s : Stats) : Erases L n key path (.node h c) s := by
  have hmem := hnd.stands.sound.mem_children_of_find hfind
  have hmem : (b, .leaf r) ∈ (RadixIndex.Node.mk h c).children := hi ▸ hmem
  have hin : r ∈ (RadixIndex.Tree.node h c).records :=
    (hnd.stands.mem_below hmem (hload ▸ hb)).mpr (List.mem_singleton_self r)
  obtain ⟨nd, herase, hremoved, hsized, -⟩ := eraseFrom_hit hnd hk hb hmem hload s
  obtain ⟨t, hsettle, hfor⟩ := Node.settle_ok hremoved.sound
    (hremoved.stem_eq.trans (Node.spells_iff.mp hnd.stands.spells)) hsized
    (fun e he => hnd.below e ((hremoved.mem e).mp he).1) s
  refine Or.inr ⟨⟨r, hin, hload⟩, t, ?_, Or.inr hfor.firm, ?_⟩
  · rw [hsettle] at herase
    exact herase
  · intro x
    rw [hfor.mem, RadixIndex.Node.toTree, RadixIndex.Tree.mem_records_node,
      RadixIndex.Tree.mem_records_node]
    constructor
    · rintro ⟨e, he, hx⟩
      obtain ⟨he, hne⟩ := (hremoved.mem e).mp he
      exact ⟨⟨e, he, hx⟩, fun hkey => hne (hnd.stands.byte_eq he hx (hkey ▸ hb))⟩
    · rintro ⟨⟨e, he, hx⟩, hkey⟩
      refine ⟨e, (hremoved.mem e).mpr ⟨he, ?_⟩, hx⟩
      intro hne
      obtain rfl := hnd.stands.sound.children_ordered.unique he hmem hne
      exact hkey (List.mem_singleton.mp hx ▸ hload)

theorem erases_below (hnd : Node.Firm L n path stem ⟨h, c⟩) (hk : key.length = n)
    (hb : path ++ stem ++ [b] <+: key) {i : Fin (NodeHeader.width h)}
    (hfind : RadixIndex.Node.find ⟨h, c⟩ b = some i)
    (hno : ∀ r, c i = .leaf r → L.load r n ≠ key)
    (hbelow : ∀ s, Erases L n key (path ++ stem ++ [b]) (c i) s) (s : Stats) :
    Erases L n key path (.node h c) s := by
  have hmem := hnd.stands.sound.mem_children_of_find hfind
  have hslot := hnd.stands.sound.find_eq_some.mp hfind
  have hin : ∀ r, L.load r n = key →
      (r ∈ (RadixIndex.Tree.node h c).records ↔ r ∈ (c i).records) :=
    fun r hr => hnd.stands.mem_below hmem (hr ▸ hb)
  obtain ⟨others, hold, hnew⟩ := recount_below hnd.stands.sound hslot
  rw [Erases, eraseFrom_miss hnd hk hb hfind hno, hold]
  rcases hbelow (others + s) with ⟨habsent, heq⟩ | ⟨⟨r, hr, hload⟩, t, heq, hleft, hrest⟩
  · refine Or.inl ⟨fun r hr hload => habsent r ((hin r hload).mp hr) hload, ?_⟩
    rw [heq]
    rfl
  · have ht : t.Firm L n (path ++ stem ++ [b]) := by
      refine hleft.resolve_left ?_
      rintro ⟨hleaf, _⟩
      cases hi : c i with
      | empty => exact absurd (hi ▸ hleaf) nofun
      | node h' c' => exact absurd (hi ▸ hleaf) nofun
      | leaf r' =>
          rw [hi, RadixIndex.Tree.records_leaf, List.mem_singleton] at hr
          exact hno r' hi (hr ▸ hload)
    refine Or.inr ⟨⟨r, (hin r hload).mpr hr, hload⟩, _, ?_,
      Or.inr (hnd.setChild hslot ht).toTree, ?_⟩
    · rw [heq, hnew t ht.fits.ne_empty]
      rfl
    · refine hnd.stands.mem_setChild_of hslot ht.fits (g := fun x p => p ∧ L.load x n ≠ key)
        hrest ?_
      intro x p hx
      exact and_iff_left fun he => hx (he ▸ hb)

end Below

/-- Erasing a key answers, and takes the record under it out if there is one. -/
theorem eraseFrom_ok {t : Tree} (ht : t.Firm L n path) (hk : key.length = n) (hp : path <+: key)
    (s : Stats) : Erases L n key path t s := by
  induction t generalizing path s with
  | empty => exact absurd rfl ht.fits.ne_empty
  | leaf r => exact erases_leaf (ht.fits.path_of_mem (List.mem_singleton_self r)) hk hp s
  | node h c ih =>
      obtain ⟨stem, -, hnd⟩ := firm_node ht
      by_cases hstem : path ++ stem <+: key
      · have hroom := hnd.stands.length_lt
        obtain ⟨b, hb⟩ := Key.exists_byte hstem (by rw [List.length_append]; omega)
        cases hfind : RadixIndex.Node.find ⟨h, c⟩ b with
        | none =>
            have hno := hnd.stands.sound.not_mem_of_find hfind
            refine Or.inl ⟨?_, ?_⟩
            · intro r hr hload
              exact hnd.stands.not_mem_below hno (hload ▸ hb) hr
            · rw [eraseFrom_node hnd hk hb, hfind]
        | some i =>
            have hmem := hnd.stands.sound.mem_children_of_find hfind
            by_cases hleaf : ∃ r, c i = .leaf r ∧ L.load r n = key
            · obtain ⟨r, hi, hload⟩ := hleaf
              exact erases_child hnd hk hb hfind hi hload s
            · refine erases_below hnd hk hb hfind (fun r hi hload => hleaf ⟨r, hi, hload⟩) ?_ s
              exact ih i (hnd.below _ hmem) hb
      · have hlen : h.stem.length = stem.length := hnd.stands.stemLength_eq
        have hne : Key.commonLength stem (key.drop path.length) ≠ stem.length := fun h =>
          hstem ((Key.commonLength_stem hp).mp h)
        refine Or.inl ⟨fun r hr hload => hstem (hload ▸ hnd.stands.stem_of_mem hr), ?_⟩
        rw [eraseFrom, hnd.stands.rooted.stemMatch_eq hk, ok_bind, hlen, if_pos hne]
        rfl

end Tree

end RadixIndex.Dynamic
