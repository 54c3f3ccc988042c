/-
# Writing within a set of records

What a write puts in the cells of a tree was there before, or is nothing, or is the record
that is stored.  So a tree within a set of records is left within the set and that record.
And what a write asks is about records that were there before, never about the one that is
stored: it is confined to the set without it.

Every function that makes a node has one lemma, that what it answers is within the set; those
that ask say in the same lemma what they are confined to.
-/
import RadixIndex.Asking.Dynamic
import RadixIndex.Proofs.Dynamic.Lookup
import RadixIndex.Proofs.Within

namespace RadixIndex.Dynamic

variable {S : Set Record}

/-! ## Cells -/

section Cells

variable {k : Nat} {cell : Fin k → Tree} {t : Tree}

theorem within_padded {cells : List Tree} (h : ∀ t ∈ cells, t.Within S) (i : Fin k) :
    (Node.padded cells .empty i).Within S := by
  rw [Node.padded]
  cases hi : cells[i.val]? with
  | none => trivial
  | some t => exact h t (List.mem_of_getElem? hi)

theorem within_shiftIn (hc : ∀ i, (cell i).Within S) (ht : t.Within S) (pos used : Nat)
    (i : Fin k) : (Node.shiftIn cell pos used t i).Within S := by
  rw [Node.shiftIn]
  split
  · exact ht
  · split
    · exact hc _
    · exact hc i

/-- What fills the last cell in use is nothing. -/
theorem within_shiftOut (hc : ∀ i, (cell i).Within S) (pos used : Nat) (i : Fin k) :
    (Node.shiftOut cell pos used .empty i).Within S := by
  rw [Node.shiftOut]
  split
  · exact hc _
  · split
    · trivial
    · exact hc i

end Cells

namespace Node

variable {nd nd' : Node} {x : Node × Stats} {t t' : Tree} {byte : UInt8} {s s' : Stats}

/-! ## Changing the layout -/

theorem within_takeChildren (hnd : nd.Within S) : ∀ e ∈ takeChildren nd, e.2.Within S := by
  intro e he
  obtain ⟨s, -, rfl⟩ := List.mem_map.mp he
  cases s.2 with
  | none => trivial
  | some i => exact hnd.child i

/-- The children taken out of a node, in cells again. -/
theorem within_padded_takeChildren (hnd : nd.Within S) {k : Nat} (i : Fin k) :
    (padded ((takeChildren nd).map Prod.snd) .empty i).Within S := by
  refine within_padded ?_ i
  intro t ht
  obtain ⟨e, he, rfl⟩ := List.mem_map.mp ht
  exact within_takeChildren hnd e he

theorem within_padded_ofFn {w k : Nat} {child : Fin w → Tree} (hc : ∀ i, (child i).Within S)
    (i : Fin k) : (padded (List.ofFn child) .empty i).Within S := by
  refine within_padded ?_ i
  intro t ht
  obtain ⟨j, rfl⟩ := List.mem_ofFn.mp ht
  exact hc j

theorem grow_within (hnd : nd.Within S) (h : grow nd = .ok nd') : nd'.Within S := by
  obtain ⟨⟨stem, layout⟩, child⟩ := nd
  have hc : ∀ i, (child i).Within S := hnd.child
  cases layout with
  | four keys used => exact Except.ok.inj h ▸ .build (within_padded_ofFn hc)
  | sixteen keys used =>
      refine Except.ok.inj h ▸ .build (within_padded ?_)
      intro t ht
      obtain ⟨s, -, rfl⟩ := List.mem_map.mp ht
      exact hc s.2
  | fortyEight table count =>
      refine Except.ok.inj h ▸ .build ?_
      intro b
      exact RadixIndex.Tree.within_lookup (within_takeChildren hnd) _
  | full count => exact absurd h nofun

theorem shrink_within (hnd : nd.Within S) (h : shrink nd = .ok nd') : nd'.Within S := by
  obtain ⟨⟨stem, layout⟩, child⟩ := nd
  have hc : ∀ i, (child i).Within S := hnd.child
  cases layout with
  | four keys used => exact absurd h nofun
  | sixteen keys used =>
      obtain ⟨_, rfl⟩ := guard_eq_ok h
      exact .build (within_padded_ofFn hc)
  | fortyEight table count | full count =>
      obtain ⟨_, rfl⟩ := guard_eq_ok h
      exact .build (within_padded_takeChildren hnd)

/-! ## Adding a child -/

theorem place_within (hnd : nd.Within S) (ht : t.Within S) (h : place byte t nd = .ok nd') :
    nd'.Within S := by
  obtain ⟨⟨stem, layout⟩, child⟩ := nd
  have hc : ∀ i, (child i).Within S := hnd.child
  cases layout with
  | four keys used | sixteen keys used =>
      obtain ⟨_, rfl⟩ := guard_eq_ok h
      exact .build (within_shiftIn hc ht _ _)
  | fortyEight table count =>
      obtain ⟨_, rfl⟩ := guard_eq_ok h
      exact .build (RadixIndex.Tree.within_setCell hc ht _)
  | full count => exact Except.ok.inj h ▸ .build (RadixIndex.Tree.within_setCell hc ht _)

theorem addChild_within (hnd : nd.Within S) (ht : t.Within S)
    (h : addChild nd byte t s = .ok x) : x.1.Within S := by
  rw [addChild] at h
  split at h
  · obtain ⟨larger, hgrow, h⟩ := bind_eq_ok.mp h
    obtain ⟨replaced, -, h⟩ := bind_eq_ok.mp h
    obtain ⟨placed, hplace, h⟩ := bind_eq_ok.mp h
    exact Except.ok.inj h ▸ place_within (grow_within hnd hgrow) ht hplace
  · obtain ⟨placed, hplace, h⟩ := bind_eq_ok.mp h
    exact Except.ok.inj h ▸ place_within hnd ht hplace

/-! ## Removing a child -/

theorem extract_within (hnd : nd.Within S) (h : extract byte nd = some (t, nd')) :
    nd'.Within S := by
  obtain ⟨⟨stem, layout⟩, child⟩ := nd
  have hc : ∀ i, (child i).Within S := hnd.child
  have hempty : (.empty : Tree).Within S := trivial
  cases layout with
  | four keys used | sixteen keys used =>
      obtain ⟨i, -, hi⟩ := Option.map_eq_some_iff.mp h
      exact (Prod.mk.inj hi).2 ▸ .build (within_shiftOut hc _ _)
  | fortyEight table count =>
      obtain ⟨i, -, hi⟩ := Option.map_eq_some_iff.mp h
      exact (Prod.mk.inj hi).2 ▸ .build (RadixIndex.Tree.within_setCell hc hempty _)
  | full count =>
      exact (Prod.mk.inj (Option.some.inj h)).2 ▸
        .build (RadixIndex.Tree.within_setCell hc hempty _)

theorem countDown_within (hnd : nd.Within S) (h : countDown nd = .ok nd') : nd'.Within S := by
  obtain ⟨⟨stem, layout⟩, child⟩ := nd
  cases layout with
  | four keys used | sixteen keys used | fortyEight table count | full count =>
      obtain ⟨_, rfl⟩ := unless_eq_ok h
      exact ⟨hnd.child⟩

theorem removeChild_within {y : Tree × Node × Stats} (hnd : nd.Within S)
    (h : removeChild nd byte s = .ok y) : y.2.1.Within S := by
  cases hextract : extract byte nd with
  | none =>
      rw [removeChild, hextract] at h
      obtain rfl := by simpa using h
      exact hnd
  | some e =>
      obtain ⟨u, left⟩ := e
      have hleft := extract_within hnd hextract
      cases u with
      | empty =>
          rw [removeChild, hextract] at h
          obtain rfl := by simpa using h
          exact hleft
      | leaf _ | node _ _ =>
          rw [removeChild, hextract] at h
          obtain ⟨less, hdown, h⟩ := bind_eq_ok.mp h
          have hless := countDown_within hleft hdown
          split at h
          · obtain ⟨smaller, hshrink, h⟩ := bind_eq_ok.mp h
            obtain ⟨replaced, -, h⟩ := bind_eq_ok.mp h
            obtain rfl := by simpa using h
            exact shrink_within hless hshrink
          · obtain rfl := by simpa using h
            exact hless

/-! ## Splitting and folding -/

theorem within_withStem (hnd : nd.Within S) (stem : Stem) : (withStem nd stem).Within S :=
  ⟨hnd.child⟩

theorem within_new (stem : Stem) : (new stem).Within S := .build fun _ => trivial

theorem splitLeaf_within {existing record : Record} {existingKey key : Key} {depth common : Nat}
    (hexisting : (.leaf existing : Tree).Within S) (hrecord : (.leaf record : Tree).Within S)
    (h : splitLeaf existing record existingKey key depth common s = .ok x) : x.1.Within S := by
  obtain ⟨stem, -, h⟩ := bind_eq_ok.mp h
  obtain ⟨b, -, h⟩ := bind_eq_ok.mp h
  obtain ⟨⟨parent, s'⟩, hadd, h⟩ := bind_eq_ok.mp h
  obtain ⟨b', -, h⟩ := bind_eq_ok.mp h
  exact addChild_within (addChild_within (within_new stem) hexisting hadd) hrecord h

theorem collapse_within (hnd : nd.Within S) (h : collapse nd = .ok t) : t.Within S := by
  obtain ⟨⟨stem, layout⟩, child⟩ := nd
  have hc : ∀ i, (child i).Within S := hnd.child
  cases layout with
  | four keys used =>
      have hfirst : (child (0 : Fin 4)).Within S := hc 0
      rw [collapse] at h
      split at h
      · rename_i hnode
        rw [hnode] at hfirst
        exact Except.ok.inj h ▸ hfirst
      · exact Except.ok.inj h ▸ hfirst
  | sixteen _ _ | fortyEight _ _ | full _ => exact absurd h nofun

theorem settle_within {y : Tree × Stats} (hnd : nd.Within S) (h : settle nd s = .ok y) :
    y.1.Within S := by
  rw [settle] at h
  split at h
  · obtain ⟨u, hcollapse, h⟩ := bind_eq_ok.mp h
    obtain ⟨freed, -, h⟩ := bind_eq_ok.mp h
    obtain rfl := by simpa using h
    exact collapse_within hnd hcollapse
  · obtain rfl := by simpa using h
    exact hnd.toTree

end Node

/-! ## Writes -/

section Writes

variable {n : Nat} {key : Key} {record : Record} {s : Stats} {depth : Nat} (hk : key.length = n)

include hk

theorem Node.splitStem_confined {nd : Node} (hnd : nd.Within S) (mismatch : Nat) :
    (Asking.splitStem nd key depth mismatch record s).Confined S n
      fun a => a.1.Within (insert record S) := by
  have hbelow : nd.Within (insert record S) := hnd.mono (Set.subset_insert record S)
  rw [Asking.splitStem, hk]
  refine .bind hnd.fullStem_confined fun stem _ => ?_
  refine .bind (.any _) fun branch _ => ?_
  refine .bind (.any _) fun rest _ => ?_
  refine .bind (.liftM fun _ h =>
    addChild_within (within_new _) (within_withStem hbelow rest).toTree h) fun parent hparent => ?_
  refine .bind (.any _) fun b _ => ?_
  have hleaf : (.leaf record : Tree).Within (insert record S) := Set.mem_insert record S
  exact .liftM fun _ h => addChild_within hparent hleaf h

namespace Tree

variable {t : Tree}

/-- The incoming record is stored, and not asked about. -/
theorem insertFrom_confined (ht : t.Within S) :
    (Asking.insertFrom key record t depth s).Confined S n
      fun a => ∀ b ∈ a, b.1.Within (insert record S) := by
  have hsub : S ⊆ insert record S := Set.subset_insert record S
  have hrecord : (.leaf record : Tree).Within (insert record S) := Set.mem_insert record S
  induction t generalizing depth s with
  | empty => exact .some hrecord
  | leaf existing =>
      rw [Asking.insertFrom, hk]
      refine .bind (.load ht) fun existingKey _ => ?_
      refine .bind (.any _) fun suffix _ => ?_
      dsimp only
      split
      · exact .none
      · refine .bind (.liftM fun _ h => Node.splitLeaf_within (hsub ht) hrecord h) ?_
        exact fun a ha => .some ha.toTree
  | node h c ih =>
      have hnd : (RadixIndex.Node.mk h c).Within S := ⟨ht⟩
      rw [Asking.insertFrom]
      refine .bind (hnd.stemMatch_confined hk) fun mismatch _ => ?_
      split
      · refine .bind (Node.splitStem_confined hk hnd mismatch) ?_
        exact fun a ha => .some ha.toTree
      · refine .bind (.any _) fun byte _ => ?_
        cases NodeHeader.find h (fun i => !(c i).isEmpty) byte with
        | none =>
            refine .bind (.liftM fun _ h => Node.addChild_within (hnd.mono hsub) hrecord h) ?_
            exact fun a ha => .some ha.toTree
        | some i =>
            exact (ih i (ht i)).mapSome fun a ha => ((hnd.mono hsub).setChild i ha).toTree

theorem leafHolds_confined (ht : t.Within S) :
    (Asking.leafHolds key t depth).Confined S n fun _ => True := by
  cases t with
  | empty | node _ _ => exact .pure trivial
  | leaf r => exact RadixIndex.Asking.matchesFrom_confined hk ht

theorem eraseFrom_confined (ht : t.Within S) :
    (Asking.eraseFrom key t depth s).Confined S n fun a => ∀ b ∈ a, b.1.Within S := by
  induction t generalizing depth s with
  | empty => exact .none
  | leaf r =>
      refine .bind (RadixIndex.Asking.matchesFrom_confined hk ht) fun hit _ => ?_
      split
      · exact .some trivial
      · exact .none
  | node h c ih =>
      have hnd : (RadixIndex.Node.mk h c).Within S := ⟨ht⟩
      rw [Asking.eraseFrom]
      refine .bind (hnd.stemMatch_confined hk) fun matched _ => ?_
      split
      · exact .none
      · refine .bind (.any _) fun byte _ => ?_
        cases NodeHeader.find h (fun i => !(c i).isEmpty) byte with
        | none => exact .none
        | some i =>
            refine .bind (leafHolds_confined hk (ht i)) fun hit _ => ?_
            split
            · refine .bind (.liftM fun _ h => Node.removeChild_within hnd h) ?_
              intro a ha
              refine .bind (.liftM fun _ h => Node.settle_within ha h) ?_
              exact fun _ hb => .some hb
            · exact (ih i (ht i)).mapSome fun a ha => (hnd.setChild i ha).toTree

/-! ### Replacing and looking up -/

theorem updateFrom_confined (ht : t.Within S) (skipped : Bool) :
    (Asking.updateFrom key record t depth skipped).Confined S n
      fun a => ∀ t' ∈ a, t'.Within (insert record S) := by
  induction t generalizing depth skipped with
  | empty => exact .none
  | leaf r =>
      refine .bind (RadixIndex.Asking.matchesFrom_confined hk ht) fun hit _ => ?_
      split
      · exact .some (Set.mem_insert record S)
      · exact .none
  | node h c ih =>
      have hnd : (RadixIndex.Node.mk h c).Within (insert record S) :=
        .mono (Set.subset_insert record S) ⟨ht⟩
      rw [Asking.updateFrom]
      split
      · dsimp only
        split
        · exact .none
        · split
          · exact .none
          · exact (ih _ (ht _) _).mapSome fun u hu => (hnd.setChild _ hu).toTree
      · exact .none

theorem getFrom_confined (ht : t.Within S) (skipped : Bool) :
    (Asking.getFrom key t depth skipped).Confined S n fun _ => True := by
  induction t generalizing depth skipped with
  | empty => exact .pure trivial
  | leaf r =>
      refine .bind (RadixIndex.Asking.matchesFrom_confined hk ht) fun hit _ => ?_
      split <;> exact .pure trivial
  | node h c ih =>
      rw [Asking.getFrom]
      split
      · dsimp only
        split
        · exact .pure trivial
        · split
          · exact .pure trivial
          · exact ih _ (ht _) _
      · exact .pure trivial

theorem getCheckedFrom_confined (ht : t.Within S) :
    (Asking.getCheckedFrom key t depth).Confined S n fun _ => True := by
  induction t generalizing depth with
  | empty => exact .pure trivial
  | leaf r =>
      refine .bind (RadixIndex.Asking.matchesFrom_confined hk ht) fun hit _ => ?_
      split <;> exact .pure trivial
  | node h c ih =>
      have hnd : (RadixIndex.Node.mk h c).Within S := ⟨ht⟩
      rw [Asking.getCheckedFrom]
      split
      · exact .pure trivial
      · refine .bind (hnd.stemMatch_confined hk) fun matched _ => ?_
        split
        · exact .pure trivial
        · dsimp only
          split
          · exact .pure trivial
          · split
            · exact .pure trivial
            · exact ih _ (ht _)

end Tree

end Writes

end RadixIndex.Dynamic

/-! ## Whole trees -/

namespace RadixIndex.DynamicTree

/-- The tree is for keys of `n` bytes, and all that is in it is of the set. -/
structure Within (S : Set Record) (n : Nat) (t : DynamicTree) : Prop where
  keyLength_eq : t.keyLength = n
  root : t.root.Within S

theorem within_empty (S : Set Record) (n : Nat) : (empty n).Within S n := ⟨rfl, trivial⟩

variable {S S' : Set Record} {n : Nat} {key : Key} {record : Record} {t : DynamicTree}

theorem Within.mono (hS : S ⊆ S') (ht : t.Within S n) : t.Within S' n :=
  ⟨ht.keyLength_eq, ht.root.mono hS⟩

namespace Within

variable (ht : t.Within S n) (hk : key.length = n)

include ht hk

/-- A record is replaced, or all is as before. -/
theorem update_confined : (Dynamic.Asking.update t key record).Confined S n
    fun a => a.1 = true ∧ a.2.Within (Insert.insert record S) n ∨ a = (false, t) := by
  refine .bind (Dynamic.Tree.updateFrom_confined hk ht.root false) fun a ha => ?_
  cases a with
  | none => exact .pure (Or.inr rfl)
  | some root => exact .pure (Or.inl ⟨rfl, ht.keyLength_eq, ha root rfl⟩)

theorem insert_confined : (Dynamic.Asking.insert t key record).Confined S n
    fun a => a.2.Within (Insert.insert record S) n := by
  rw [Dynamic.Asking.insert]
  split
  · exact .stop .keyLength
  · refine .bind (Dynamic.Tree.insertFrom_confined hk ht.root) fun a ha => ?_
    cases a with
    | none => exact .pure (ht.mono (Set.subset_insert record S))
    | some b => exact .pure ⟨ht.keyLength_eq, ha b rfl⟩

theorem upsert_confined : (Dynamic.Asking.upsert t key record).Confined S n
    fun t' => t'.Within (Insert.insert record S) n := by
  refine .bind (ht.update_confined hk) fun a ha => ?_
  obtain ⟨updated, t'⟩ := a
  rcases ha with ⟨rfl, ht'⟩ | heq
  · exact .pure ht'
  · obtain ⟨rfl, rfl⟩ := Prod.mk.inj heq
    exact .bind (ht.insert_confined hk) fun _ ha => .pure ha

theorem erase_confined : (Dynamic.Asking.erase t key).Confined S n fun a => a.2.Within S n := by
  rw [Dynamic.Asking.erase]
  split
  · exact .stop .keyLength
  · refine .bind (Dynamic.Tree.eraseFrom_confined hk ht.root) fun a ha => ?_
    cases a with
    | none => exact .pure ht
    | some b =>
        dsimp only
        split
        · exact .stop .underflow
        · exact .pure ⟨ht.keyLength_eq, ha b rfl⟩

end Within

end RadixIndex.DynamicTree
