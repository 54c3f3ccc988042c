/-
# Keys as paths

A place in a radix tree is named by the bytes that lead there, its *path*.  The
keys below the place are the ones the path is a beginning of, `path <+: key`.
This module has what the rest of the theory needs to know about such beginnings:

    cutting     a key that goes on with `stem` gives `stem` when it is cut there
    forking     two keys that go on with different bytes are different keys, and
                the bytes order them
    comparing   `Key.commonLength` is the length of the longest common beginning

Nothing here mentions a tree.
-/
import RadixIndex.Key.Loader

namespace RadixIndex.Key

theorem length_below (path stem : Key) (b : UInt8) :
    (path ++ stem ++ [b]).length = path.length + stem.length + 1 := by
  rw [List.length_append, List.length_append, List.length_singleton]

/-! ## Cutting a key at a path -/

theorem slice_of_path {path stem key : Key} (h : path ++ stem <+: key) :
    slice key path.length (path.length + stem.length) = .ok stem := by
  obtain ⟨rest, rfl⟩ := h
  have hle : path.length + stem.length ≤ (path ++ stem ++ rest).length := by
    simp only [List.length_append]
    omega
  rw [slice, if_pos ⟨Nat.le_add_right _ _, hle⟩]
  simp [List.take_append]

theorem slice_of_le {key : Key} {start stop : Nat} (h : start ≤ stop)
    (hk : stop ≤ key.length) : slice key start stop = .ok ((key.take stop).drop start) :=
  if_pos ⟨h, hk⟩

theorem length_slice {key part : Key} {start stop : Nat} (h : slice key start stop = .ok part) :
    part.length = stop - start := by
  rw [slice] at h
  split at h
  · rename_i hle
    rw [← Except.ok.inj h, List.length_drop, List.length_take, Nat.min_eq_left hle.2]
  · exact absurd h nofun

theorem suffix_of_le {key : Key} {start : Nat} (h : start ≤ key.length) :
    suffix key start = .ok (key.drop start) :=
  if_pos h

theorem getElem?_of_path {path key : Key} {b : UInt8} (h : path ++ [b] <+: key) :
    key[path.length]? = some b := by
  obtain ⟨rest, rfl⟩ := h
  simp

theorem byteAt_of_path {path key : Key} {b : UInt8} (h : path ++ [b] <+: key) :
    byteAt key path.length = .ok b := by
  rw [byteAt, getElem?_of_path h]

theorem byteAt_of_lt {key : Key} {i : Nat} (h : i < key.length) : byteAt key i = .ok key[i] := by
  rw [byteAt, List.getElem?_eq_getElem h]

theorem exists_byteAt {key : Key} {i : Nat} (h : i < key.length) : ∃ b, byteAt key i = .ok b :=
  ⟨key[i], byteAt_of_lt h⟩

theorem path_snoc {path key : Key} {b : UInt8} (h : path <+: key)
    (hb : key[path.length]? = some b) : path ++ [b] <+: key := by
  obtain ⟨rest, rfl⟩ := h
  cases rest with
  | nil => simp at hb
  | cons a rest => exact ⟨rest, by simpa using hb.symm⟩

/-- A key that is longer than its path goes on with some byte. -/
theorem exists_byte {path key : Key} (h : path <+: key) (hl : path.length < key.length) :
    ∃ b, path ++ [b] <+: key := by
  obtain ⟨rest, rfl⟩ := h
  cases rest with
  | nil => simp at hl
  | cons b rest => exact ⟨b, rest, by simp⟩

theorem exists_segment {path key : Key} (h : path <+: key) {k : Nat}
    (hk : path.length + k < key.length) :
    ∃ segment b, segment.length = k ∧ path ++ segment ++ [b] <+: key := by
  obtain ⟨rest, rfl⟩ := h
  rw [List.length_append, Nat.add_lt_add_iff_left] at hk
  refine ⟨rest.take k, rest[k], List.length_take_of_le (Nat.le_of_lt hk), rest.drop (k + 1), ?_⟩
  simp

theorem drop_of_path {path key : Key} (h : path <+: key) :
    path ++ key.drop path.length = key := by
  obtain ⟨rest, rfl⟩ := h
  simp

/-- Beyond a common path two keys differ if they differ at all. -/
theorem drop_eq_iff {path key key' : Key} (h : path <+: key) (h' : path <+: key') :
    key.drop path.length = key'.drop path.length ↔ key = key' := by
  constructor
  · intro hd
    rw [← drop_of_path h, ← drop_of_path h', hd]
  · intro hk
    rw [hk]

theorem append_prefix_iff {path rest key : Key} (h : path <+: key) :
    path ++ rest <+: key ↔ rest <+: key.drop path.length := by
  obtain ⟨tail, rfl⟩ := h
  rw [List.drop_left]
  exact List.prefix_append_right_inj path

theorem continuesWith_iff {path part key : Key} (h : path <+: key) :
    continuesWith key path.length part = true ↔ path ++ part <+: key := by
  rw [append_prefix_iff h, continuesWith, Bool.and_eq_true, decide_eq_true_eq, beq_iff_eq]
  constructor
  · rintro ⟨-, hp⟩
    exact hp ▸ List.take_prefix _ _
  · intro hp
    have hl := hp.length_le
    have := h.length_le
    rw [List.length_drop] at hl
    exact ⟨by omega, (List.prefix_iff_eq_take.mp hp).symm⟩

/-! ## Forks -/

theorem byte_unique {path key : Key} {a b : UInt8} (ha : path ++ [a] <+: key)
    (hb : path ++ [b] <+: key) : a = b :=
  Option.some.inj ((getElem?_of_path ha).symm.trans (getElem?_of_path hb))

theorem prefix_of_append {path rest key : Key} (h : path ++ rest <+: key) : path <+: key :=
  (List.prefix_append path rest).trans h

/-- Where two keys part, the smaller byte leads to the smaller key. -/
theorem lt_of_fork {path key key' : Key} {a b : UInt8} (ha : path ++ [a] <+: key)
    (hb : path ++ [b] <+: key') (hab : a < b) : key < key' := by
  obtain ⟨rest, rfl⟩ := ha
  obtain ⟨rest', rfl⟩ := hb
  simp only [List.append_assoc, List.singleton_append]
  exact List.append_left_lt (List.cons_lt_cons_iff.mpr (Or.inl hab))

/-! ## The order that `compare` tells -/

theorem compare_cons (x y : UInt8) (xs ys : Key) :
    compare (x :: xs) (y :: ys) = (compare x y).then (compare xs ys) :=
  List.compareLex_cons_cons

theorem compare_eq_lt : ∀ {a b : Key}, compare a b = .lt ↔ a < b
  | [], [] => by decide
  | [], _ :: _ => by simp
  | _ :: _, [] => by simp
  | x :: xs, y :: ys => by
      rw [compare_cons, Ordering.then_eq_lt, Std.compare_eq_lt, Std.compare_eq_iff_eq,
        compare_eq_lt, List.cons_lt_cons_iff]

theorem compare_eq_gt {a b : Key} : compare a b = .gt ↔ b < a := by
  rw [Std.OrientedCmp.gt_iff_lt, compare_eq_lt]

/-- Keys cut at the same length are compared piece by piece. -/
theorem compare_append : ∀ {xs s : Key} (ys t : Key), xs.length = s.length →
    compare (xs ++ ys) (s ++ t) = (compare xs s).then (compare ys t)
  | [], [], _, _, _ => rfl
  | x :: xs, a :: s, ys, t, h => by
      rw [List.cons_append, List.cons_append, compare_cons, compare_cons,
        compare_append ys t (Nat.succ.inj h), Ordering.then_assoc]

/-- Where two keys go on with pieces of the same length, these order them. -/
theorem lt_of_segment {path s t key key' : Key} (hs : path ++ s <+: key) (ht : path ++ t <+: key')
    (hlength : s.length = t.length) (h : compare s t = .lt) : key < key' := by
  obtain ⟨rest, rfl⟩ := hs
  obtain ⟨rest', rfl⟩ := ht
  rw [List.append_assoc, List.append_assoc]
  refine List.append_left_lt (compare_eq_lt.mp ?_)
  rw [compare_append _ _ hlength, h]
  rfl

/-! ## Common beginnings -/

theorem commonLength_le_left : ∀ (xs ys : Key), commonLength xs ys ≤ xs.length
  | [], _ => Nat.le_refl 0
  | _ :: _, [] => Nat.zero_le _
  | x :: xs, y :: ys => by
      rw [commonLength]
      split
      · exact Nat.succ_le_succ (commonLength_le_left xs ys)
      · exact Nat.zero_le _

theorem take_commonLength : ∀ (xs ys : Key),
    xs.take (commonLength xs ys) = ys.take (commonLength xs ys)
  | [], [] => rfl
  | [], _ :: _ => rfl
  | _ :: _, [] => rfl
  | x :: xs, y :: ys => by
      rw [commonLength]
      split
      · rename_i h
        rw [List.take_succ_cons, List.take_succ_cons, take_commonLength xs ys, h]
      · rfl

theorem length_shared (xs ys : Key) :
    (xs.take (commonLength xs ys)).length = commonLength xs ys :=
  List.length_take_of_le (commonLength_le_left xs ys)

theorem shared_append (xs ys : Key) :
    xs.take (commonLength xs ys) ++ ys.drop (commonLength xs ys) = ys := by
  rw [take_commonLength, List.take_append_drop]

/-- Where the common beginning ends, the keys go on with different bytes. -/
theorem commonLength_fork : ∀ {xs ys : Key} {a b : UInt8} {r r' : Key},
    xs.drop (commonLength xs ys) = a :: r → ys.drop (commonLength xs ys) = b :: r' → a ≠ b
  | [], _, _, _, _, _, h, _ => by simp at h
  | _ :: _, [], _, _, _, _, _, h => by simp at h
  | x :: xs, y :: ys, a, b, r, r', h, h' => by
      rw [commonLength] at h h'
      split at h
      · rename_i hxy
        rw [if_pos hxy] at h'
        exact commonLength_fork h h'
      · rename_i hxy
        rw [if_neg hxy] at h'
        cases h
        cases h'
        exact hxy

theorem commonLength_eq_length : ∀ {xs ys : Key}, commonLength xs ys = xs.length ↔ xs <+: ys
  | [], _ => by simp [commonLength]
  | _ :: _, [] => by simp [commonLength]
  | x :: xs, y :: ys => by
      rw [commonLength, List.cons_prefix_cons, ← commonLength_eq_length]
      split
      · rename_i h
        simp [h]
      · rename_i h
        simp [h]

/-- The common beginnings are those that are no longer than this. -/
theorem le_commonLength : ∀ {xs ys : Key} {k : Nat},
    k ≤ commonLength xs ys ↔ k ≤ xs.length ∧ xs.take k <+: ys
  | [], ys, k => by simp +contextual [commonLength]
  | x :: xs, ys, 0 => by simp
  | x :: xs, [], k + 1 => by simp [commonLength]
  | x :: xs, y :: ys, k + 1 => by
      rw [commonLength, List.take_succ_cons, List.cons_prefix_cons, List.length_cons]
      split
      · rename_i h
        rw [Nat.add_le_add_iff_right, Nat.add_le_add_iff_right, le_commonLength]
        exact ⟨fun ⟨hle, hp⟩ => ⟨hle, h, hp⟩, fun ⟨hle, _, hp⟩ => ⟨hle, hp⟩⟩
      · rename_i h
        exact ⟨nofun, fun hp => absurd hp.2.1 h⟩

/-- A key that has followed a path follows all of a stem when all of the stem is common. -/
theorem commonLength_stem {path stem key : Key} (h : path <+: key) :
    commonLength stem (key.drop path.length) = stem.length ↔ path ++ stem <+: key :=
  commonLength_eq_length.trans (append_prefix_iff h).symm

/-- Two keys that go on beyond their common beginning go on with different bytes. -/
theorem exists_fork (xs ys : Key) (hx : commonLength xs ys < xs.length)
    (hy : commonLength xs ys < ys.length) : ∃ shared a xr b yr, a ≠ b ∧
      shared.length = commonLength xs ys ∧ xs = shared ++ a :: xr ∧ ys = shared ++ b :: yr := by
  obtain ⟨a, xr, ha⟩ := List.exists_cons_of_length_pos
    (show 0 < (xs.drop (commonLength xs ys)).length by rw [List.length_drop]; omega)
  obtain ⟨b, yr, hb⟩ := List.exists_cons_of_length_pos
    (show 0 < (ys.drop (commonLength xs ys)).length by rw [List.length_drop]; omega)
  refine ⟨xs.take (commonLength xs ys), a, xr, b, yr, commonLength_fork ha hb,
    length_shared xs ys, ?_, ?_⟩
  · rw [← ha, List.take_append_drop]
  · rw [← hb, shared_append]

section Below

variable {path key key' : Key} {n : Nat}

/-- Keys with a common path that have all further bytes in common are the same. -/
theorem eq_of_commonLength (h : path <+: key) (h' : path <+: key') (hn : key.length = n)
    (hn' : key'.length = n)
    (hle : n ≤ path.length + commonLength (key.drop path.length) (key'.drop path.length)) :
    key = key' := by
  have hbound := commonLength_le_left (key.drop path.length) (key'.drop path.length)
  have hwhole : key.drop path.length <+: key'.drop path.length := by
    rw [← commonLength_eq_length]
    rw [List.length_drop, hn] at hbound ⊢
    omega
  refine (drop_eq_iff h h').mp (hwhole.eq_of_length ?_)
  rw [List.length_drop, List.length_drop, hn, hn']

/-- Keys with a common path that do not have all further bytes in common part below it. -/
theorem exists_fork_below (h : path <+: key) (h' : path <+: key') (hn : key.length = n)
    (hn' : key'.length = n)
    (hlt : path.length + commonLength (key.drop path.length) (key'.drop path.length) < n) :
    ∃ shared a b, a ≠ b ∧
      shared.length = commonLength (key.drop path.length) (key'.drop path.length) ∧
        path ++ shared ++ [a] <+: key ∧ path ++ shared ++ [b] <+: key' := by
  obtain ⟨shared, a, xr, b, yr, hab, hlength, hx, hy⟩ :=
    exists_fork (key.drop path.length) (key'.drop path.length)
      (by rw [List.length_drop]; omega) (by rw [List.length_drop]; omega)
  refine ⟨shared, a, b, hab, hlength, ⟨xr, ?_⟩, ⟨yr, ?_⟩⟩
  · rw [← drop_of_path h, hx]
    simp
  · rw [← drop_of_path h', hy]
    simp

end Below

/-- The common beginning with two pieces, one after the other. -/
theorem commonLength_append : ∀ (s t ks : Key), commonLength (s ++ t) ks =
    if commonLength s ks < s.length then commonLength s ks
    else s.length + commonLength t (ks.drop s.length)
  | [], t, ks => by simp [commonLength]
  | _ :: _, _, [] => by simp [commonLength]
  | x :: s, t, k :: ks => by
      rw [List.cons_append, commonLength, commonLength]
      split
      · rw [commonLength_append s t ks, List.length_cons, List.drop_succ_cons]
        split
        · rename_i h
          rw [if_pos (Nat.succ_lt_succ h)]
        · rename_i h
          rw [if_neg fun hlt => h (Nat.lt_of_succ_lt_succ hlt)]
          omega
      · exact (if_pos (Nat.succ_pos _)).symm

end RadixIndex.Key

/-! ## Leaves -/

namespace RadixIndex.Loader

/-- The bytes of a path that the key and the record share need not be compared. -/
theorem matchesFrom_iff {L : Loader} {n : Nat} {r : Record} {key path : Key}
    (hk : key.length = n) (hr : path <+: L.load r n) (hp : path <+: key) :
    L.matchesFrom r key path.length = true ↔ L.load r n = key := by
  subst hk
  rw [matchesFrom, Bool.or_eq_true, decide_eq_true_eq, beq_iff_eq, Key.drop_eq_iff hr hp]
  refine ⟨fun h => h.elim ?_ id, Or.inr⟩
  intro hle
  have hload := hr.eq_of_length_le (by rw [L.length_load]; exact hle)
  exact hload.symm.trans (hp.eq_of_length_le hle)

end RadixIndex.Loader
