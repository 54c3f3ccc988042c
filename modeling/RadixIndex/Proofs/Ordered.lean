/-
# Lists in strict order

Children come in the order of their bytes and records in the order of their keys.
In both cases the order is strict, so a list is known by its members, and a member
is known by what it is ordered by.
-/
import RadixIndex.Key

namespace RadixIndex

variable {α κ : Type} [LT κ]

/-- What the members of the list are ordered by grows from each to the next. -/
abbrev OrderedBy (key : α → κ) (l : List α) : Prop := l.Pairwise fun x y => key x < key y

namespace OrderedBy

variable [Std.Asymm (fun x y : κ => x < y)] {key : α → κ} {l l' : List α}

theorem irrefl {a : κ} (h : a < a) : False := Std.Asymm.asymm a a h h

theorem nodup (h : OrderedBy key l) : l.Nodup := by
  refine List.Pairwise.imp ?_ h
  intro x y hlt he
  exact irrefl (he ▸ hlt)

theorem unique (h : OrderedBy key l) {x y : α} (hx : x ∈ l) (hy : y ∈ l)
    (he : key x = key y) : x = y := by
  induction l with
  | nil => exact absurd hx List.not_mem_nil
  | cons z l ih =>
      obtain ⟨hlt, hrest⟩ := List.pairwise_cons.mp h
      rcases List.mem_cons.mp hx with rfl | hxl
      · rcases List.mem_cons.mp hy with rfl | hyl
        · rfl
        · exact (irrefl (he ▸ hlt y hyl)).elim
      · rcases List.mem_cons.mp hy with rfl | hyl
        · exact (irrefl (he ▸ hlt x hxl)).elim
        · exact ih hrest hxl hyl

/-- Two lists in the same order with the same members are the same list. -/
theorem ext (h : OrderedBy key l) (h' : OrderedBy key l') (hm : ∀ x, x ∈ l ↔ x ∈ l') :
    l = l' :=
  ((List.perm_ext_iff_of_nodup h.nodup h'.nodup).mpr hm).eq_of_pairwise
    (fun x y _ _ hxy hyx => absurd hyx (Std.Asymm.asymm (key x) (key y) hxy)) h h'

/-- A list with one more member, up to the order. -/
theorem perm_cons (h : OrderedBy key l) (h' : OrderedBy key l') {x : α} (hx : x ∉ l)
    (hm : ∀ y, y ∈ l' ↔ y = x ∨ y ∈ l) : l'.Perm (x :: l) := by
  refine (List.perm_ext_iff_of_nodup h'.nodup (List.nodup_cons.mpr ⟨hx, h.nodup⟩)).mpr ?_
  intro y
  rw [hm, List.mem_cons]

/-- A list with one member less, up to the order. -/
theorem perm_erase (h : OrderedBy key l) (h' : OrderedBy key l') {x : α} (hx : x ∈ l)
    (hm : ∀ y, y ∈ l' ↔ y ∈ l ∧ key y ≠ key x) : l.Perm (x :: l') := by
  refine h'.perm_cons h (fun hin => ((hm x).mp hin).2 rfl) ?_
  intro y
  rw [hm]
  constructor
  · intro hy
    by_cases he : key y = key x
    · exact Or.inl (h.unique hy hx he)
    · exact Or.inr ⟨hy, he⟩
  · rintro (rfl | ⟨hy, -⟩)
    · exact hx
    · exact hy

end OrderedBy

/-! ## Ascending bytes -/

theorem ascending_iff : ∀ {bytes : List UInt8},
    ascending bytes = true ↔ bytes.Pairwise (· < ·)
  | [] => by simp [ascending]
  | [x] => by simp [ascending]
  | x :: y :: rest => by
      rw [ascending, Bool.and_eq_true, decide_eq_true_eq, ascending_iff,
        List.pairwise_cons (a := x)]
      constructor
      · rintro ⟨hxy, hrest⟩
        refine ⟨?_, hrest⟩
        intro z hz
        rcases List.mem_cons.mp hz with rfl | hz
        · exact hxy
        · exact UInt8.lt_trans hxy ((List.pairwise_cons.mp hrest).1 z hz)
      · rintro ⟨hx, hrest⟩
        exact ⟨hx y List.mem_cons_self, hrest⟩

/-- What comes before a byte, and what does not. -/
theorem exists_dropWhile {l : List (UInt8 × α)} (h : OrderedBy Prod.fst l) (b : UInt8) :
    ∃ pre, l = pre ++ l.dropWhile (fun e => decide (e.1 < b)) ∧ (∀ e ∈ pre, e.1 < b) ∧
      ∀ e rest, l.dropWhile (fun e => decide (e.1 < b)) = e :: rest →
        ¬ e.1 < b ∧ ∀ e' ∈ rest, e.1 < e'.1 := by
  refine ⟨l.takeWhile fun e => decide (e.1 < b), List.takeWhile_append_dropWhile.symm,
    fun e he => of_decide_eq_true (List.all_eq_true.mp List.all_takeWhile e he),
    fun e rest hdrop => ⟨?_, ?_⟩⟩
  · have hhead := List.head_dropWhile_not (l := l) (fun e => decide (e.1 < b))
      (by rw [hdrop]; exact List.cons_ne_nil e rest)
    simp only [hdrop, List.head_cons] at hhead
    exact of_decide_eq_false hhead
  · have hsub := h.sublist (List.dropWhile_sublist fun e => decide (e.1 < b))
    rw [hdrop] at hsub
    exact (List.pairwise_cons.mp hsub).1

/-- The first entry from a byte on is the one with the least byte from there on. -/
theorem find?_eq_some_of_least {l : List (UInt8 × α)} (h : OrderedBy Prod.fst l) {b : UInt8}
    {x : UInt8 × α} (hx : x ∈ l) (hle : b ≤ x.1) (hleast : ∀ y ∈ l, b ≤ y.1 → x.1 ≤ y.1) :
    l.find? (fun e => decide (b ≤ e.1)) = some x := by
  cases hfind : l.find? fun e => decide (b ≤ e.1) with
  | none => exact absurd (decide_eq_true hle) (List.find?_eq_none.mp hfind x hx)
  | some y =>
      obtain ⟨hy, pre, post, hl, hpre⟩ := List.find?_eq_some_iff_append.mp hfind
      have hmem : x ∈ pre ++ y :: post := hl ▸ hx
      rcases List.mem_append.mp hmem with hin | hin
      · exact absurd hle (by simpa using hpre x hin)
      · have hyx := hleast y (hl ▸ List.mem_append_right pre List.mem_cons_self)
          (of_decide_eq_true hy)
        rcases List.mem_cons.mp hin with rfl | hin
        · rfl
        · rw [hl] at h
          have hlt := (List.pairwise_cons.mp (List.pairwise_append.mp h).2.1).1 x hin
          exact absurd hlt (UInt8.not_lt.mpr hyx)

theorem ascending_map_fst {l : List (UInt8 × α)} :
    ascending (l.map Prod.fst) = true ↔ OrderedBy Prod.fst l :=
  ascending_iff.trans List.pairwise_map

end RadixIndex
