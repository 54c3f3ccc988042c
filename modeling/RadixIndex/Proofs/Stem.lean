/-
# Reading a stem

A node that keeps only the beginning of its stem reads the rest from the key of
its smallest leaf.  Every leaf below a rooted node has the stem in its key,
so it does not matter which one is asked, and the three readings
are what they would be if the whole stem were kept:

    fullStem      the stem
    stemMatch     the length of the common beginning of the stem and the key
    compareStem   the comparison of the key, cut at the length of the stem, with it

With another loader than that of the tree the three readings mean nothing, and a key may be
longer than those of the tree.  They answer all the same where the key reaches as far as the
stem, because a loader gives keys of the length asked for.
-/
import RadixIndex.Proofs.Answers
import RadixIndex.Proofs.Records
import RadixIndex.Tree.Stem

namespace RadixIndex.Node.Rooted

variable {H : Type} [NodeHeader H] {L : Loader} {n : Nat} {path stem : Key} {nd : Node H}

/-- Either the node keeps the whole stem, or it asks a record whose key has it. -/
theorem witness_cases (hnd : nd.Rooted L n path stem) :
    nd.witness? = none ∧ nd.stemBytes = stem ∨
      ∃ r, nd.witness? = some r ∧ path ++ stem <+: L.load r n := by
  rw [witness?]
  split
  · rename_i hle
    rw [hnd.stemLength_eq] at hle
    exact Or.inl ⟨rfl, hnd.spells.kept.eq_of_length_le hle⟩
  · obtain ⟨r, hr, hmem⟩ := hnd.rooted.exists_least
    exact Or.inr ⟨r, hr, hnd.stem_of_mem hmem⟩

theorem fullStem_eq (hnd : nd.Rooted L n path stem) :
    nd.fullStem L path.length n = .ok stem := by
  rw [fullStem]
  rcases hnd.witness_cases with ⟨hw, hk⟩ | ⟨r, hw, hr⟩
  · rw [hw, hk]
  · rw [hw, hnd.stemLength_eq]
    exact Key.slice_of_path hr

/-- The stem, cut where the part that the node keeps ends. -/
theorem kept_append (hnd : nd.Rooted L n path stem) :
    nd.stemBytes ++ stem.drop nd.stemBytes.length = stem :=
  Key.drop_of_path hnd.spells.kept

/-- The part of the stem that the node does not keep, read from a key. -/
theorem slice_rest (hnd : nd.Rooted L n path stem) {key : Key} (hk : path ++ stem <+: key) :
    Key.slice key (path.length + nd.stemBytes.length) (path.length + nd.stemLength) =
      .ok (stem.drop nd.stemBytes.length) := by
  have hsplit : (path ++ nd.stemBytes) ++ stem.drop nd.stemBytes.length <+: key := by
    rw [List.append_assoc, hnd.kept_append]
    exact hk
  have hslice := Key.slice_of_path hsplit
  rw [List.length_append, List.length_drop] at hslice
  rw [hnd.stemLength_eq, ← hslice]
  have := hnd.spells.kept.length_le
  congr 1
  omega

theorem stemMatch_eq (hnd : nd.Rooted L n path stem) {key : Key} (hk : key.length = n) :
    nd.stemMatch L key path.length = .ok (Key.commonLength stem (key.drop path.length)) := by
  have hlt := hnd.length_lt
  have hkept := hnd.spells.kept.length_le
  have hsuffix : Key.suffix key path.length = .ok (key.drop path.length) :=
    Key.suffix_of_le (by omega)
  have hsuffix' : Key.suffix key (path.length + nd.stemBytes.length) =
      .ok (key.drop (path.length + nd.stemBytes.length)) :=
    Key.suffix_of_le (by omega)
  have hsplit : Key.commonLength stem (key.drop path.length) = _ :=
    hnd.kept_append ▸ Key.commonLength_append nd.stemBytes
      (stem.drop nd.stemBytes.length) (key.drop path.length)
  rw [stemMatch, hsuffix, ok_bind]
  dsimp only
  by_cases hlt : Key.commonLength nd.stemBytes (key.drop path.length) < nd.stemBytes.length
  · rw [if_pos hlt, hsplit, if_pos hlt, pure_eq_ok]
  · rw [if_neg hlt]
    rw [if_neg hlt, List.drop_drop] at hsplit
    rcases hnd.witness_cases with ⟨hw, hkeep⟩ | ⟨r, hw, hr⟩
    · rw [hw, hkeep, pure_eq_ok]
    · rw [hw]
      simp only [hk, hnd.slice_rest hr, hsuffix', ok_bind, pure_eq_ok, hsplit]

theorem compareStem_eq (hnd : nd.Rooted L n path stem) {key : Key} (hk : key.length = n) :
    nd.compareStem L key path.length =
      .ok (compare ((key.drop path.length).take stem.length) stem) := by
  have hlt := hnd.length_lt
  have hkept := hnd.spells.kept.length_le
  have hfirst : Key.slice key path.length (path.length + nd.stemBytes.length) =
      .ok ((key.drop path.length).take nd.stemBytes.length) := by
    rw [Key.slice_of_le (by omega) (by omega), List.drop_take, Nat.add_sub_cancel_left]
  have hsecond : Key.slice key (path.length + nd.stemBytes.length)
      (path.length + nd.stemLength) = .ok
        (((key.drop path.length).drop nd.stemBytes.length).take
          (stem.drop nd.stemBytes.length).length) := by
    rw [hnd.stemLength_eq, Key.slice_of_le (by omega) (by omega), List.drop_take,
      List.drop_drop, List.length_drop, Nat.add_sub_add_left]
  -- The key is compared piece by piece, as the stem is read.
  have hsplit : compare ((key.drop path.length).take stem.length) stem = _ :=
    calc compare ((key.drop path.length).take stem.length) stem
        = compare ((key.drop path.length).take nd.stemBytes.length ++
            ((key.drop path.length).drop nd.stemBytes.length).take
              (stem.drop nd.stemBytes.length).length)
            (nd.stemBytes ++ stem.drop nd.stemBytes.length) := by
          rw [hnd.kept_append, ← List.take_add, List.length_drop, Nat.add_sub_cancel' hkept]
      _ = _ := Key.compare_append _ _ (by rw [List.length_take, List.length_drop]; omega)
  rw [compareStem, hfirst, ok_bind, hsplit]
  dsimp only
  cases horder : compare ((key.drop path.length).take nd.stemBytes.length) nd.stemBytes with
  | lt => rfl
  | gt => rfl
  | eq =>
      rcases hnd.witness_cases with ⟨hw, hkeep⟩ | ⟨r, hw, hr⟩
      · rw [hw, hkeep]
        simp
      · rw [hw]
        simp [hk, hsecond, hnd.slice_rest hr]

/-! ## Any loader and any key -/

section Any

variable (M : Loader) {key : Key}

theorem fullStem_answers (hnd : nd.Rooted L n path stem) :
    ∃ bytes, nd.fullStem M path.length n = .ok bytes ∧ bytes.length = stem.length := by
  have hlt := hnd.length_lt
  rw [fullStem]
  rcases hnd.witness_cases with ⟨hw, hk⟩ | ⟨r, hw, -⟩
  · rw [hw, hk]
    exact ⟨stem, rfl, rfl⟩
  · rw [hw, hnd.stemLength_eq]
    dsimp only
    rw [Key.slice_of_le (by omega) (by rw [M.length_load]; omega)]
    refine ⟨_, rfl, ?_⟩
    rw [List.length_drop, List.length_take, M.length_load]
    omega

theorem stemMatch_answers (hnd : nd.Rooted L n path stem)
    (hk : path.length + stem.length ≤ key.length) :
    ∃ matched, nd.stemMatch M key path.length = .ok matched := by
  have hkept := hnd.spells.kept.length_le
  rw [stemMatch, Key.suffix_of_le (by omega), ok_bind]
  dsimp only
  split
  · exact ⟨_, rfl⟩
  · cases nd.witness? with
    | none => exact ⟨_, rfl⟩
    | some r =>
        dsimp only
        rw [hnd.stemLength_eq, Key.slice_of_le (by omega) (by rw [M.length_load]; exact hk),
          ok_bind, Key.suffix_of_le (by omega)]
        exact ⟨_, rfl⟩

theorem compareStem_answers (hnd : nd.Rooted L n path stem)
    (hk : path.length + stem.length ≤ key.length) :
    ∃ order, nd.compareStem M key path.length = .ok order := by
  have hkept := hnd.spells.kept.length_le
  rw [compareStem, Key.slice_of_le (by omega) (by omega), ok_bind]
  dsimp only
  split
  · exact ⟨_, rfl⟩
  · cases nd.witness? with
    | none => exact ⟨_, rfl⟩
    | some r =>
        dsimp only
        rw [hnd.stemLength_eq, Key.slice_of_le (by omega) hk, ok_bind,
          Key.slice_of_le (by omega) (by rw [M.length_load]; exact hk)]
        exact ⟨_, rfl⟩

end Any

end RadixIndex.Node.Rooted
