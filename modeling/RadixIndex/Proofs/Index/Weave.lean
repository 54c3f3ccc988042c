/-
# Two lists of records as one

A scan weaves what its two cursors show into one list in the order of the keys.  Of two
records with the same key it takes the one of the first list (`mem_weave`), and what
comes out is in strict order again (`weave_ordered`).
-/
import RadixIndex.Proofs.Records

namespace RadixIndex

variable {L : Loader} {n : Nat} {key : Key}

/-- The records of both lists in the order of their keys. -/
def weave (L : Loader) (n : Nat) : List Record → List Record → List Record
  | [], fs => fs
  | d :: ds, [] => d :: ds
  | d :: ds, f :: fs =>
      match compare (L.load d n) (L.load f n) with
      | .lt => d :: weave L n ds (f :: fs)
      | .gt => f :: weave L n (d :: ds) fs
      | .eq => d :: weave L n ds fs
  termination_by ds fs => ds.length + fs.length

section Equations

variable {d f : Record} {ds fs : List Record}

@[simp]
theorem weave_nil_left (fs : List Record) : weave L n [] fs = fs := by
  rw [weave]

@[simp]
theorem weave_nil_right (ds : List Record) : weave L n ds [] = ds := by
  cases ds <;> rw [weave]

theorem weave_lt (h : compare (L.load d n) (L.load f n) = .lt) :
    weave L n (d :: ds) (f :: fs) = d :: weave L n ds (f :: fs) := by
  rw [weave, h]

theorem weave_gt (h : compare (L.load d n) (L.load f n) = .gt) :
    weave L n (d :: ds) (f :: fs) = f :: weave L n (d :: ds) fs := by
  rw [weave, h]

theorem weave_eq (h : compare (L.load d n) (L.load f n) = .eq) :
    weave L n (d :: ds) (f :: fs) = d :: weave L n ds fs := by
  rw [weave, h]

end Equations

/-- What is woven comes from one of the lists. -/
theorem mem_of_mem_weave {ds fs : List Record} {x : Record} (hx : x ∈ weave L n ds fs) :
    x ∈ ds ∨ x ∈ fs := by
  induction ds, fs using weave.induct L n with
  | case1 fs => exact Or.inr (weave_nil_left fs ▸ hx)
  | case2 d ds => exact Or.inl (weave_nil_right (d :: ds) ▸ hx)
  | case3 d ds f fs hlt ih =>
      rw [weave_lt hlt] at hx
      rcases List.mem_cons.mp hx with rfl | hx
      · exact Or.inl List.mem_cons_self
      · exact (ih hx).imp_left (List.mem_cons_of_mem _)
  | case4 d ds f fs hgt ih =>
      rw [weave_gt hgt] at hx
      rcases List.mem_cons.mp hx with rfl | hx
      · exact Or.inr List.mem_cons_self
      · exact (ih hx).imp_right (List.mem_cons_of_mem _)
  | case5 d ds f fs heq ih =>
      rw [weave_eq heq] at hx
      rcases List.mem_cons.mp hx with rfl | hx
      · exact Or.inl List.mem_cons_self
      · exact (ih hx).imp (List.mem_cons_of_mem _) (List.mem_cons_of_mem _)

theorem length_weave_le (ds fs : List Record) :
    (weave L n ds fs).length ≤ ds.length + fs.length := by
  induction ds, fs using weave.induct L n with
  | case1 fs => simp
  | case2 d ds => simp
  | case3 d ds f fs hlt ih =>
      rw [weave_lt hlt]
      simp only [List.length_cons] at ih ⊢
      omega
  | case4 d ds f fs hgt ih =>
      rw [weave_gt hgt]
      simp only [List.length_cons] at ih ⊢
      omega
  | case5 d ds f fs heq ih =>
      rw [weave_eq heq]
      simp only [List.length_cons] at ih ⊢
      omega

/-- A key before the first one of a list is before all keys of the list. -/
theorem before_of_lt {d f : Record} {fs : List Record} (h : L.load d n < L.load f n)
    (hfs : L.Ordered n (f :: fs)) : ∀ x ∈ f :: fs, L.load d n < L.load x n := by
  intro x hx
  rcases List.mem_cons.mp hx with rfl | hx
  · exact h
  · exact List.lt_trans h ((List.pairwise_cons.mp hfs).1 x hx)

theorem weave_ordered {ds fs : List Record} (hds : L.Ordered n ds) (hfs : L.Ordered n fs) :
    L.Ordered n (weave L n ds fs) := by
  induction ds, fs using weave.induct L n with
  | case1 fs => rwa [weave_nil_left]
  | case2 d ds => rwa [weave_nil_right]
  | case3 d ds f fs hlt ih =>
      obtain ⟨hd, hds⟩ := List.pairwise_cons.mp hds
      rw [weave_lt hlt]
      refine List.pairwise_cons.mpr ⟨?_, ih hds hfs⟩
      intro x hx
      rcases mem_of_mem_weave hx with hx | hx
      · exact hd x hx
      · exact before_of_lt (Key.compare_eq_lt.mp hlt) hfs x hx
  | case4 d ds f fs hgt ih =>
      obtain ⟨hf, hfs⟩ := List.pairwise_cons.mp hfs
      rw [weave_gt hgt]
      refine List.pairwise_cons.mpr ⟨?_, ih hds hfs⟩
      intro x hx
      rcases mem_of_mem_weave hx with hx | hx
      · exact before_of_lt (Key.compare_eq_gt.mp hgt) hds x hx
      · exact hf x hx
  | case5 d ds f fs heq ih =>
      obtain ⟨hd, hds⟩ := List.pairwise_cons.mp hds
      obtain ⟨hf, hfs⟩ := List.pairwise_cons.mp hfs
      rw [weave_eq heq]
      refine List.pairwise_cons.mpr ⟨?_, ih hds hfs⟩
      intro x hx
      rcases mem_of_mem_weave hx with hx | hx
      · exact hd x hx
      · have hsame : L.load d n = L.load f n := Std.compare_eq_iff_eq.mp heq
        show L.load d n < L.load x n
        rw [hsame]
        exact hf x hx

/-- The key of a record in one list that is before all keys of another list is not there. -/
theorem ne_of_before {d : Record} {xs : List Record}
    (h : ∀ x ∈ xs, L.load d n < L.load x n) {x : Record} (hx : x ∈ xs) :
    L.load d n ≠ L.load x n :=
  fun he => OrderedBy.irrefl (he ▸ h x hx)

/-- All records of the first list are woven in, and those of the second list whose keys
the first one lacks. -/
theorem mem_weave {ds fs : List Record} (hds : L.Ordered n ds) (hfs : L.Ordered n fs)
    (x : Record) : x ∈ weave L n ds fs ↔
      x ∈ ds ∨ x ∈ fs ∧ ∀ y ∈ ds, L.load y n ≠ L.load x n := by
  induction ds, fs using weave.induct L n with
  | case1 fs => simp
  | case2 d ds => simp
  | case3 d ds f fs hlt ih =>
      have hbefore := before_of_lt (Key.compare_eq_lt.mp hlt) hfs
      rw [weave_lt hlt, List.mem_cons, ih (List.pairwise_cons.mp hds).2 hfs,
        List.mem_cons (l := ds), List.forall_mem_cons, or_assoc]
      refine or_congr_right (or_congr_right (and_congr_right ?_))
      intro hx
      exact (and_iff_right (ne_of_before hbefore hx)).symm
  | case4 d ds f fs hgt ih =>
      have hbefore := before_of_lt (Key.compare_eq_gt.mp hgt) hds
      rw [weave_gt hgt, List.mem_cons, ih hds (List.pairwise_cons.mp hfs).2,
        List.mem_cons (l := fs), or_and_right, or_left_comm]
      refine or_congr_right (or_congr_left ?_)
      exact (and_iff_left_of_imp fun hx y hy => hx ▸ (ne_of_before hbefore hy).symm).symm
  | case5 d ds f fs heq ih =>
      have hf := (List.pairwise_cons.mp hfs).1
      have hsame : L.load d n = L.load f n := Std.compare_eq_iff_eq.mp heq
      have hother : ∀ x ∈ fs, L.load d n ≠ L.load x n := by
        intro x hx
        rw [hsame]
        exact ne_of_before hf hx
      rw [weave_eq heq, List.mem_cons, ih (List.pairwise_cons.mp hds).2
        (List.pairwise_cons.mp hfs).2, List.mem_cons (l := ds), List.forall_mem_cons, or_assoc]
      refine or_congr_right (or_congr_right ?_)
      constructor
      · rintro ⟨hx, hno⟩
        exact ⟨List.mem_cons_of_mem _ hx, hother x hx, hno⟩
      · rintro ⟨hx, hne, hno⟩
        rcases List.mem_cons.mp hx with rfl | hx
        · exact absurd hsame hne
        · exact ⟨hx, hno⟩

end RadixIndex
