/-
# Looking up in a dynamic tree

Going down the optimistic way a stem may be passed over that the key does not have,
and the search goes on in a part of the tree where the key cannot be.  It still
finds the right thing: the bytes that were passed over are compared at the leaf, so
nothing wrong is found (`getFrom_eq_some`), and a key that is there has every stem
on its way.

What is known on the way down is that the key begins with the path, unless a stem
has been skipped.
-/
import RadixIndex.Proofs.Dynamic.Firm
import RadixIndex.Dynamic.Lookup

namespace RadixIndex.Dynamic

variable {L : Loader} {n : Nat} {path stem key : Key}

/-! ## One step down -/

namespace Header

variable {h : Header}

theorem admits_of_path (hstem : h.stem = Stem.of stem) (hk : path ++ stem <+: key) :
    h.admits key path.length = true := by
  rw [admits, Bool.or_eq_true, hstem]
  refine Or.inr ?_
  rw [Key.continuesWith_iff (Key.prefix_of_append hk)]
  exact ((List.prefix_append_right_inj path).mpr (List.take_prefix _ _)).trans hk

/-- A stem that is not skipped is compared as a whole. -/
theorem path_of_admits (hstem : h.stem = Stem.of stem) (hk : path <+: key)
    (ha : h.admits key path.length = true) (hs : h.skips = false) : path ++ stem <+: key := by
  have hle : ¬ inlineCapacity < h.stem.length := of_decide_eq_false hs
  rw [admits, decide_eq_false hle, Bool.false_or, Key.continuesWith_iff hk, hstem] at ha
  rw [hstem] at hle
  have hwhole : (Stem.of stem).inline = stem := List.take_of_length_le (Nat.le_of_not_lt hle)
  exact hwhole ▸ ha

end Header

namespace Node

/-- The slot that the optimistic way goes on to from a node. -/
def branch (nd : Node) (key : Key) (depth : Nat) : Option (Fin (NodeHeader.width nd.header)) :=
  if nd.header.admits key depth then
    key[depth + nd.header.stem.length]?.bind nd.find
  else none

variable {nd : Node} {i : Fin (NodeHeader.width nd.header)} {b : UInt8}

theorem branch_of_path (hstem : nd.header.stem = Stem.of stem)
    (hk : path ++ stem ++ [b] <+: key) : nd.branch key path.length = nd.find b := by
  have hbyte := Key.getElem?_of_path hk
  rw [List.length_append] at hbyte
  rw [branch, if_pos (Header.admits_of_path hstem (Key.prefix_of_append hk)), hstem]
  show (key[path.length + stem.length]?).bind _ = _
  rw [hbyte, Option.bind_some]

theorem path_of_branch (hstem : nd.header.stem = Stem.of stem) {skipped : Bool}
    (hp : skipped = false → path <+: key) (hi : nd.branch key path.length = some i) :
    ∃ b, nd.find b = some i ∧
      ((skipped || nd.header.skips) = false → path ++ stem ++ [b] <+: key) := by
  rw [branch] at hi
  split at hi
  · rename_i hadmits
    obtain ⟨b, hb, hfind⟩ := Option.bind_eq_some_iff.mp hi
    refine ⟨b, hfind, ?_⟩
    intro hs
    obtain ⟨hs, hskips⟩ := Bool.or_eq_false_iff.mp hs
    refine Key.path_snoc (Header.path_of_admits hstem (hp hs) hadmits hskips) ?_
    rw [List.length_append]
    rw [hstem] at hb
    exact hb
  · exact absurd hi nofun

end Node

namespace Tree

variable {h : Header} {c : Fin (NodeHeader.width h) → Tree} {depth : Nat} {skipped : Bool}

theorem getFrom_node : getFrom L key (.node h c) depth skipped =
    (Node.branch ⟨h, c⟩ key depth).bind fun i =>
      getFrom L key (c i) (depth + h.stem.length + 1) (skipped || h.skips) := by
  rw [getFrom, Node.branch]
  split
  · dsimp only
    cases key[depth + h.stem.length]? with
    | none => rfl
    | some b =>
        dsimp only [Option.bind_some, RadixIndex.Node.find]
        cases NodeHeader.find h (fun i => !(c i).isEmpty) b <;> rfl
  · rfl

theorem updateFrom_node {record : Record} : updateFrom L key record (.node h c) depth skipped =
    (Node.branch ⟨h, c⟩ key depth).bind fun i =>
      (updateFrom L key record (c i) (depth + h.stem.length + 1) (skipped || h.skips)).map
        fun t => ((RadixIndex.Node.mk h c).setChild i t).toTree := by
  rw [updateFrom, Node.branch]
  split
  · dsimp only
    cases key[depth + h.stem.length]? with
    | none => rfl
    | some b =>
        dsimp only [Option.bind_some, RadixIndex.Node.find]
        cases NodeHeader.find h (fun i => !(c i).isEmpty) b <;> rfl
  · rfl

/-- The comparison at a leaf decides whether the leaf holds the key. -/
theorem matches_leaf {r : Record} (hr : path <+: L.load r n)
    (hk : key.length = n) (hp : skipped = false → path <+: key) :
    L.matchesFrom r key (if skipped then 0 else path.length) = true ↔ L.load r n = key := by
  cases skipped with
  | true => exact Loader.matchesFrom_iff hk List.nil_prefix List.nil_prefix
  | false => exact Loader.matchesFrom_iff hk hr (hp rfl)

/-! ## Getting -/

theorem getFrom_eq_some {t : Tree} (ht : t.Fits L n path) (hk : key.length = n)
    (hp : skipped = false → path <+: key) {r : Record} :
    getFrom L key t path.length skipped = some r ↔ r ∈ t.records ∧ L.load r n = key := by
  induction ht generalizing skipped with
  | @leaf path s hs =>
      have hleaf := matches_leaf hs hk hp
      rw [getFrom, RadixIndex.Tree.records_leaf, List.mem_singleton]
      by_cases hload : L.load s n = key
      · rw [if_pos (hleaf.mpr hload), Option.some.injEq, eq_comm]
        exact ⟨fun h => ⟨h, h ▸ hload⟩, And.left⟩
      · rw [if_neg fun h => hload (hleaf.mp h)]
        exact ⟨nofun, fun ⟨h, hr⟩ => absurd (h ▸ hr) hload⟩
  | @node path stem h c hsound hspells _ hbelow ih =>
      have hstem : h.stem = Stem.of stem := Node.spells_iff.mp hspells
      have hlen : ∀ b : UInt8, path.length + h.stem.length + 1 = (path ++ stem ++ [b]).length :=
        fun b => hstem ▸ (Key.length_below path stem b).symm
      rw [getFrom_node, RadixIndex.Tree.mem_records_node]
      constructor
      · intro hget
        obtain ⟨i, hi, hget⟩ := Option.bind_eq_some_iff.mp hget
        obtain ⟨b, hfind, hpath⟩ := Node.path_of_branch hstem hp hi
        have hmem := hsound.mem_children_of_find hfind
        rw [hlen b] at hget
        obtain ⟨hr, hload⟩ := (ih _ hmem hpath).mp hget
        exact ⟨⟨_, hmem, hr⟩, hload⟩
      · rintro ⟨⟨e, he, hre⟩, hload⟩
        have hpath : path ++ stem ++ [e.1] <+: key := hload ▸ (hbelow e he).path_of_mem hre
        obtain ⟨i, hfind, hi⟩ := hsound.exists_find he
        have hi : c i = e.2 := hi
        rw [Node.branch_of_path hstem hpath, hfind, Option.bind_some, hi, hlen e.1]
        exact (ih e he fun _ => hpath).mpr ⟨hre, hload⟩

/-- What is found is the record under the key, if there is one. -/
theorem getFrom_eq_none {t : Tree} (ht : t.Fits L n path) (hk : key.length = n)
    (hp : skipped = false → path <+: key) :
    getFrom L key t path.length skipped = none ↔ ∀ r ∈ t.records, L.load r n ≠ key := by
  rw [Option.eq_none_iff_forall_ne_some]
  constructor
  · intro h r hr hload
    exact h r ((getFrom_eq_some ht hk hp).mpr ⟨hr, hload⟩)
  · intro h r hget
    obtain ⟨hr, hload⟩ := (getFrom_eq_some ht hk hp).mp hget
    exact h r hr hload

/-! ## Updating -/

/-- There is something to update where there is something to get. -/
theorem isSome_updateFrom (record : Record) (t : Tree) :
    (updateFrom L key record t depth skipped).isSome =
      (getFrom L key t depth skipped).isSome := by
  induction t generalizing depth skipped with
  | empty => rfl
  | leaf r =>
      rw [updateFrom, getFrom]
      cases L.matchesFrom r key (if skipped then 0 else depth) <;> rfl
  | node h c ih =>
      rw [updateFrom_node, getFrom_node]
      cases Node.branch ⟨h, c⟩ key depth with
      | none => rfl
      | some i =>
          rw [Option.bind_some, Option.bind_some, Option.isSome_map]
          exact ih i

/-- The tree `t'` is `t` with `record` in the place of the record under its key. -/
structure Updated (L : Loader) (n : Nat) (path : Key) (record : Record) (t t' : Tree) : Prop where
  firm : t'.Firm L n path
  recount_eq : t'.recount = t.recount
  mem : ∀ x, x ∈ t'.records ↔ x = record ∨ x ∈ t.records ∧ L.load x n ≠ L.load record n

theorem updateFrom_some {record : Record} (hr : L.load record n = key) {t t' : Tree}
    (ht : t.Firm L n path) (hk : key.length = n) (hp : skipped = false → path <+: key)
    (hu : updateFrom L key record t path.length skipped = some t') :
    Updated L n path record t t' := by
  induction t generalizing path skipped t' with
  | empty => exact absurd rfl ht.fits.ne_empty
  | leaf s =>
      have hs : path <+: L.load s n := ht.fits.path_of_mem (List.mem_singleton_self s)
      rw [updateFrom] at hu
      by_cases hmatch : L.matchesFrom s key (if skipped then 0 else path.length) = true
      · have hload := (matches_leaf hs hk hp).mp hmatch
        rw [if_pos hmatch] at hu
        obtain rfl := Option.some.inj hu
        refine ⟨firm_leaf (hr ▸ hload ▸ hs), rfl, ?_⟩
        intro x
        simp only [RadixIndex.Tree.records_leaf, List.mem_singleton]
        refine ⟨Or.inl, fun h => h.resolve_right ?_⟩
        rintro ⟨rfl, hne⟩
        exact hne (hload.trans hr.symm)
      · rw [if_neg hmatch] at hu
        exact absurd hu nofun
  | node h c ih =>
      obtain ⟨stem, hstem, hfirm⟩ := firm_node ht
      have hnd := hfirm.stands
      rw [updateFrom_node] at hu
      obtain ⟨i, hi, hu⟩ := Option.bind_eq_some_iff.mp hu
      obtain ⟨s, hs, rfl⟩ := Option.map_eq_some_iff.mp hu
      obtain ⟨b, hfind, hpath⟩ := Node.path_of_branch hstem hp hi
      have hmem := hnd.sound.mem_children_of_find hfind
      have hslot := hnd.sound.find_eq_some.mp hfind
      have hlen : path.length + h.stem.length + 1 = (path ++ stem ++ [b]).length :=
        hstem ▸ (Key.length_below path stem b).symm
      rw [hlen] at hs
      have hbelow := ih i (hfirm.below _ hmem) hpath hs
      -- The new record is below the byte, so its key goes on with the byte.
      have hkey : path ++ stem ++ [b] <+: L.load record n :=
        hbelow.firm.fits.path_of_mem ((hbelow.mem record).mpr (Or.inl rfl))
      refine ⟨(hfirm.setChild hslot hbelow.firm).toTree, ?_, ?_⟩
      · obtain ⟨others, hold, hnew⟩ := Node.recount_setChild hnd.sound hslot
        rw [hnew s hbelow.firm.fits.ne_empty, hbelow.recount_eq]
        exact hold.symm
      · refine hnd.mem_setChild_of hslot hbelow.firm.fits
          (g := fun x p => x = record ∨ p ∧ L.load x n ≠ L.load record n) hbelow.mem ?_
        intro x p hx
        have hne : L.load x n ≠ L.load record n := fun he => hx (he ▸ hkey)
        rw [or_iff_right fun he => hne (congrArg (L.load · n) he), and_iff_left hne]

end Tree

end RadixIndex.Dynamic
