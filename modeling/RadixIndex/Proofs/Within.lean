/-
# Trees of given records

A tree is within a set of records when all that is anywhere in its cells is of the set,
also in cells that no byte leads to (`Tree.Within`).  Unlike `Tree.Fits` it asks nothing
else, so it holds of every tree that there can be, also of one whose records stand under
keys that are not their own.

Whatever a tree has a loader asked is about one of these records, and for a key as long as
the keys of the tree: comparing stems, looking for the first leaf from a key on and comparing
the key of a leaf are confined to the set (`Asking.Confined`).
-/
import RadixIndex.Asking.Tree
import RadixIndex.Proofs.Asking

namespace RadixIndex

variable {H : Type} [NodeHeader H] {S S' : Set Record} {n : Nat} {key : Key} {depth : Nat}

/-- All that is in the cells of the tree, and in those of the trees there, is of the set. -/
def Tree.Within (S : Set Record) : Tree H → Prop
  | .empty => True
  | .leaf r => r ∈ S
  | .node _ c => ∀ i, (c i).Within S

/-- All that is in the cells of the node is within the set. -/
structure Node.Within (S : Set Record) (nd : Node H) : Prop where
  child : ∀ i, (nd.child i).Within S

namespace Tree.Within

variable {t : Tree H}

theorem mono (hS : S ⊆ S') (ht : t.Within S) : t.Within S' := by
  induction t with
  | empty => trivial
  | leaf r => exact hS ht
  | node h c ih => exact fun i => ih i (ht i)

/-- The smallest leaf holds a record of the set. -/
theorem least (ht : t.Within S) : ∀ r ∈ t.least?, r ∈ S := by
  induction t with
  | empty => exact nofun
  | leaf s =>
      intro r hr
      obtain rfl : s = r := Option.some.inj hr
      exact ht
  | node h c ih =>
      intro r hr
      rw [least?] at hr
      split at hr
      · exact absurd hr nofun
      · exact ih _ (ht _) r hr

end Tree.Within

theorem Tree.within_setCell {k : Nat} {cell : Fin k → Tree H} (hc : ∀ i, (cell i).Within S)
    {t : Tree H} (ht : t.Within S) (j i : Fin k) : (setCell cell j t i).Within S := by
  rw [setCell]
  split
  · exact ht
  · exact hc i

/-- What a list of children has under a byte, or nothing. -/
theorem Tree.within_lookup {l : List (UInt8 × Tree H)} (h : ∀ e ∈ l, e.2.Within S) (b : UInt8) :
    ((l.lookup b).getD .empty).Within S := by
  cases ht : l.lookup b with
  | none => trivial
  | some t =>
      obtain ⟨l₁, l₂, rfl, -⟩ := List.lookup_eq_some_iff.mp ht
      exact h (b, t) (List.mem_append_right _ List.mem_cons_self)

/-! ## Nodes -/

namespace Node.Within

variable {nd : Node H}

theorem mono (hS : S ⊆ S') (hnd : nd.Within S) : nd.Within S' :=
  ⟨fun i => (hnd.child i).mono hS⟩

theorem toTree (hnd : nd.Within S) : nd.toTree.Within S := hnd.child

theorem build {h : H} {c : Fin (NodeHeader.width h) → Tree H} (hc : ∀ i, (c i).Within S) :
    (Node.build h c).Within S := by
  rw [build_eq]
  exact ⟨hc⟩

theorem setChild (hnd : nd.Within S) (i : Fin (NodeHeader.width nd.header)) {t : Tree H}
    (ht : t.Within S) : (nd.setChild i t).Within S := by
  exact .build (Tree.within_setCell hnd.child ht i)

theorem children (hnd : nd.Within S) : ∀ e ∈ nd.children, e.2.Within S := by
  intro e he
  obtain ⟨s, -, rfl⟩ := List.mem_map.mp he
  exact hnd.child s.2

theorem witness (hnd : nd.Within S) : ∀ r ∈ nd.witness?, r ∈ S := by
  intro r hr
  rw [witness?] at hr
  split at hr
  · exact absurd hr nofun
  · exact hnd.toTree.least r hr

theorem fullStem_confined (hnd : nd.Within S) :
    (Asking.fullStem nd depth n).Confined S n fun _ => True := by
  rw [Asking.fullStem]
  cases hr : nd.witness? with
  | none => exact .pure trivial
  | some r => exact .bind (.load (hnd.witness r hr)) fun _ _ => .any _

variable (hk : key.length = n)

include hk

theorem stemMatch_confined (hnd : nd.Within S) :
    (Asking.stemMatch nd key depth).Confined S n fun _ => True := by
  rw [Asking.stemMatch, hk]
  refine .bind (.any _) fun suffix _ => ?_
  dsimp only
  split
  · exact .pure trivial
  · cases hr : nd.witness? with
    | none => exact .pure trivial
    | some r =>
        refine .bind (.load (hnd.witness r hr)) fun leafKey _ => ?_
        refine .bind (.any _) fun stem _ => ?_
        exact .bind (.any _) fun _ _ => .pure trivial

theorem compareStem_confined (hnd : nd.Within S) :
    (Asking.compareStem nd key depth).Confined S n fun _ => True := by
  rw [Asking.compareStem, hk]
  refine .bind (.any _) fun beginning _ => ?_
  dsimp only
  split
  · exact .pure trivial
  · cases hr : nd.witness? with
    | none => exact .pure trivial
    | some r =>
        refine .bind (.load (hnd.witness r hr)) fun leafKey _ => ?_
        refine .bind (.any _) fun part _ => ?_
        exact .bind (.any _) fun _ _ => .pure trivial

end Node.Within

theorem Asking.matchesFrom_confined (hk : key.length = n) {r : Record} (hr : r ∈ S) :
    (matchesFrom r key depth).Confined S n fun _ => True := by
  rw [matchesFrom, hk]
  split
  · exact .pure trivial
  · exact .bind (.load hr) fun _ _ => .pure trivial

/-! ## Cursors -/

namespace Cursor

/-- The cursor stands on a record of the set, if on any, and has trees within the set still
to come. -/
structure Within (S : Set Record) (cur : Cursor H) : Prop where
  current : ∀ r ∈ cur.current, r ∈ S
  pending : ∀ t ∈ cur.pending, t.Within S

variable {pending : List (Tree H)}

theorem Within.ended (hp : ∀ t ∈ pending, t.Within S) : (Cursor.mk none pending).Within S :=
  ⟨nofun, hp⟩

theorem descend_within {t : Tree H} (ht : t.Within S) (hp : ∀ t ∈ pending, t.Within S) :
    (descend t pending).Within S := by
  induction t generalizing pending with
  | empty => exact .ended hp
  | leaf r =>
      refine ⟨?_, hp⟩
      intro s hs
      obtain rfl : r = s := Option.some.inj hs
      exact ht
  | node h c ih =>
      rw [descend]
      split
      · exact .ended hp
      · rename_i i rest _
        refine ih i (ht i) ?_
        intro t' ht'
        rcases List.mem_append.mp ht' with ht' | ht'
        · obtain ⟨s, -, rfl⟩ := List.mem_map.mp ht'
          exact ht s.2
        · exact hp t' ht'

theorem resume_within (hp : ∀ t ∈ pending, t.Within S) : (resume pending).Within S := by
  cases pending with
  | nil => exact .ended hp
  | cons t rest =>
      exact descend_within (hp t List.mem_cons_self) fun t' ht' =>
        hp t' (List.mem_cons_of_mem _ ht')

theorem first_within {t : Tree H} (ht : t.Within S) : (first t).Within S :=
  descend_within ht fun _ h => absurd h List.not_mem_nil

theorem Within.advance {cur : Cursor H} (h : cur.Within S) : cur.advance.Within S := by
  rw [Cursor.advance]
  split
  · exact h
  · exact resume_within h.pending

theorem seekFrom_confined (hk : key.length = n) {t : Tree H} (ht : t.Within S)
    (hp : ∀ t ∈ pending, t.Within S) :
    (Asking.seekFrom key t depth pending).Confined S n (Within S) := by
  induction t generalizing depth pending with
  | empty => exact .pure (.ended hp)
  | leaf r =>
      rw [Asking.seekFrom, hk]
      refine .bind (.load ht) fun leafKey _ => ?_
      split
      · exact .pure (resume_within hp)
      · exact .pure (descend_within ht hp)
  | node h c ih =>
      have hnd : (Node.mk h c).Within S := ⟨ht⟩
      rw [Asking.seekFrom]
      refine .bind (hnd.compareStem_confined hk) fun order _ => ?_
      cases order with
      | gt => exact .pure (resume_within hp)
      | lt => exact .pure (descend_within ht hp)
      | eq =>
          dsimp only
          cases key[depth + NodeHeader.stemLength h]? with
          | none => exact .pure (descend_within ht hp)
          | some byte =>
              dsimp only
              split
              · exact .pure (resume_within hp)
              · rename_i b i rest _
                have hrest : ∀ t ∈ rest.map (fun s => c s.2) ++ pending, t.Within S := by
                  intro t' ht'
                  rcases List.mem_append.mp ht' with ht' | ht'
                  · obtain ⟨s, -, rfl⟩ := List.mem_map.mp ht'
                    exact ht s.2
                  · exact hp t' ht'
                split
                · exact ih i (ht i) hrest
                · exact .pure (descend_within (ht i) hrest)

theorem lowerBound_confined (hk : key.length = n) {t : Tree H} (ht : t.Within S) :
    (Asking.lowerBound t key).Confined S n (Within S) :=
  seekFrom_confined hk ht fun _ h => absurd h List.not_mem_nil

end Cursor

end RadixIndex
