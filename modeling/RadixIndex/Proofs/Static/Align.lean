/-
# Lining up children

Two lists with ascending bytes are lined up as one, in which a byte comes once, with
what either list has for it.  Nothing is lost and nothing is added: what came from
one of the lists is that list again, in its order (`flatMap_lefts`,
`flatMap_rights`).
-/
import RadixIndex.Proofs.Ordered
import RadixIndex.Static.Merge

namespace RadixIndex.Static

variable {α β α' β' γ : Type}

namespace Pairing

/-- What a pairing has when each side is changed by a function. -/
def map (f : α → α') (g : β → β') : Pairing α β → Pairing α' β'
  | .left x => .left (f x)
  | .right y => .right (g y)
  | .both x y => .both (f x) (g y)

/-- What a pairing has on the left. -/
def lefts (f : α → List γ) : Pairing α β → List γ
  | .left x | .both x _ => f x
  | .right _ => []

/-- What a pairing has on the right. -/
def rights (g : β → List γ) : Pairing α β → List γ
  | .right y | .both _ y => g y
  | .left _ => []

end Pairing

theorem align_nil_left (ys : List (UInt8 × β)) :
    align ([] : List (UInt8 × α)) ys = ys.map fun y => (y.1, .right y.2) := by
  rw [align]

theorem align_nil_right (xs : List (UInt8 × α)) :
    align xs ([] : List (UInt8 × β)) = xs.map fun x => (x.1, .left x.2) := by
  cases xs with
  | nil => rw [align]; rfl
  | cons x xs =>
      rw [align]
      exact List.cons_ne_nil x xs

theorem align_cons (a : UInt8) (x : α) (xs : List (UInt8 × α)) (b : UInt8) (y : β)
    (ys : List (UInt8 × β)) : align ((a, x) :: xs) ((b, y) :: ys) =
      if a = b then (a, .both x y) :: align xs ys
      else if a < b then (a, .left x) :: align xs ((b, y) :: ys)
      else (b, .right y) :: align ((a, x) :: xs) ys := by
  rw [align]

theorem align_map (f : α → α') (g : β → β') (xs : List (UInt8 × α)) (ys : List (UInt8 × β)) :
    align (xs.map fun x => (x.1, f x.2)) (ys.map fun y => (y.1, g y.2)) =
      (align xs ys).map fun e => (e.1, e.2.map f g) := by
  induction xs, ys using align.induct with
  | case1 ys =>
      rw [List.map_nil, align_nil_left, align_nil_left, List.map_map, List.map_map]
      rfl
  | case2 xs hxs =>
      rw [List.map_nil, align_nil_right, align_nil_right, List.map_map, List.map_map]
      rfl
  | case3 x xs b y ys ih =>
      simp only [List.map_cons, align_cons, if_pos, ih]
      rfl
  | case4 a x xs b y ys hne hlt ih =>
      simp only [List.map_cons, align_cons, if_neg hne, if_pos hlt] at ih ⊢
      rw [ih]
      rfl
  | case5 a x xs b y ys hne hlt ih =>
      simp only [List.map_cons, align_cons, if_neg hne, if_neg hlt] at ih ⊢
      rw [ih]
      rfl

section Members

variable (xs : List (UInt8 × α)) (ys : List (UInt8 × β))

theorem flatMap_lefts (f : α → List γ) :
    (align xs ys).flatMap (fun e => e.2.lefts f) = xs.flatMap fun x => f x.2 := by
  induction xs, ys using align.induct with
  | case1 ys =>
      rw [align_nil_left, List.flatMap_map]
      simp [Pairing.lefts]
  | case2 xs hxs =>
      rw [align_nil_right, List.flatMap_map]
      rfl
  | case3 x xs b y ys ih =>
      rw [align_cons, if_pos rfl, List.flatMap_cons, List.flatMap_cons, ih]
      rfl
  | case4 a x xs b y ys hne hlt ih =>
      rw [align_cons, if_neg hne, if_pos hlt, List.flatMap_cons, List.flatMap_cons, ih]
      rfl
  | case5 a x xs b y ys hne hlt ih =>
      rw [align_cons, if_neg hne, if_neg hlt, List.flatMap_cons, ih]
      rfl

theorem flatMap_rights (g : β → List γ) :
    (align xs ys).flatMap (fun e => e.2.rights g) = ys.flatMap fun y => g y.2 := by
  induction xs, ys using align.induct with
  | case1 ys =>
      rw [align_nil_left, List.flatMap_map]
      rfl
  | case2 xs hxs =>
      rw [align_nil_right, List.flatMap_map]
      simp [Pairing.rights]
  | case3 x xs b y ys ih =>
      rw [align_cons, if_pos rfl, List.flatMap_cons, List.flatMap_cons, ih]
      rfl
  | case4 a x xs b y ys hne hlt ih =>
      rw [align_cons, if_neg hne, if_pos hlt, List.flatMap_cons, ih]
      rfl
  | case5 a x xs b y ys hne hlt ih =>
      rw [align_cons, if_neg hne, if_neg hlt, List.flatMap_cons, List.flatMap_cons, ih]
      rfl

theorem length_le_align :
    xs.length ≤ (align xs ys).length ∧ ys.length ≤ (align xs ys).length := by
  induction xs, ys using align.induct with
  | case1 ys => simp [align_nil_left]
  | case2 xs hxs => simp [align_nil_right]
  | case3 x xs b y ys ih =>
      rw [align_cons, if_pos rfl]
      simp only [List.length_cons]
      omega
  | case4 a x xs b y ys hne hlt ih =>
      rw [align_cons, if_neg hne, if_pos hlt]
      simp only [List.length_cons] at ih ⊢
      omega
  | case5 a x xs b y ys hne hlt ih =>
      rw [align_cons, if_neg hne, if_neg hlt]
      simp only [List.length_cons] at ih ⊢
      omega

/-- What a pairing has under a byte, the lists have under that byte. -/
def Pairing.From (xs : List (UInt8 × α)) (ys : List (UInt8 × β)) (b : UInt8) :
    Pairing α β → Prop
  | .left x => (b, x) ∈ xs
  | .right y => (b, y) ∈ ys
  | .both x y => (b, x) ∈ xs ∧ (b, y) ∈ ys

variable {xs ys}

theorem Pairing.From.imp {xs' : List (UInt8 × α)} {ys' : List (UInt8 × β)} {b : UInt8}
    {p : Pairing α β} (h : p.From xs ys b) (hxs : xs ⊆ xs') (hys : ys ⊆ ys') : p.From xs' ys' b := by
  cases p with
  | left x => exact hxs h
  | right y => exact hys h
  | both x y => exact ⟨hxs h.1, hys h.2⟩

theorem from_of_mem_align {e : UInt8 × Pairing α β} (he : e ∈ align xs ys) :
    e.2.From xs ys e.1 := by
  induction xs, ys using align.induct with
  | case1 ys =>
      rw [align_nil_left] at he
      obtain ⟨y, hy, rfl⟩ := List.mem_map.mp he
      exact hy
  | case2 xs hxs =>
      rw [align_nil_right] at he
      obtain ⟨x, hx, rfl⟩ := List.mem_map.mp he
      exact hx
  | case3 x xs b y ys ih =>
      rw [align_cons, if_pos rfl] at he
      rcases List.mem_cons.mp he with rfl | he
      · exact ⟨List.mem_cons_self, List.mem_cons_self⟩
      · exact (ih he).imp (List.subset_cons_self _ _) (List.subset_cons_self _ _)
  | case4 a x xs b y ys hne hlt ih =>
      rw [align_cons, if_neg hne, if_pos hlt] at he
      rcases List.mem_cons.mp he with rfl | he
      · exact List.mem_cons_self
      · exact (ih he).imp (List.subset_cons_self _ _) (List.Subset.refl _)
  | case5 a x xs b y ys hne hlt ih =>
      rw [align_cons, if_neg hne, if_neg hlt] at he
      rcases List.mem_cons.mp he with rfl | he
      · exact List.mem_cons_self
      · exact (ih he).imp (List.Subset.refl _) (List.subset_cons_self _ _)

/-- A byte below those of both lists is below those of the aligned one. -/
theorem lt_of_mem_align {a : UInt8} (hxs : ∀ x ∈ xs, a < x.1) (hys : ∀ y ∈ ys, a < y.1)
    {e : UInt8 × Pairing α β} (he : e ∈ align xs ys) : a < e.1 := by
  obtain ⟨b, p⟩ := e
  have hfrom := from_of_mem_align he
  cases p with
  | left x => exact hxs _ hfrom
  | right y => exact hys _ hfrom
  | both x y => exact hxs _ hfrom.1

theorem align_ordered (hxs : OrderedBy Prod.fst xs) (hys : OrderedBy Prod.fst ys) :
    OrderedBy Prod.fst (align xs ys) := by
  induction xs, ys using align.induct with
  | case1 ys =>
      rw [align_nil_left]
      exact List.pairwise_map.mpr hys
  | case2 xs hne =>
      rw [align_nil_right]
      exact List.pairwise_map.mpr hxs
  | case3 x xs b y ys ih =>
      obtain ⟨hx, hxs⟩ := List.pairwise_cons.mp hxs
      obtain ⟨hy, hys⟩ := List.pairwise_cons.mp hys
      rw [align_cons, if_pos rfl]
      exact List.pairwise_cons.mpr ⟨fun e he => lt_of_mem_align hx hy he, ih hxs hys⟩
  | case4 a x xs b y ys hne hlt ih =>
      obtain ⟨hx, hxs⟩ := List.pairwise_cons.mp hxs
      have hy := (List.pairwise_cons.mp hys).1
      rw [align_cons, if_neg hne, if_pos hlt]
      refine List.pairwise_cons.mpr ⟨fun e he => lt_of_mem_align hx ?_ he, ih hxs hys⟩
      intro z hz
      rcases List.mem_cons.mp hz with rfl | hz
      · exact hlt
      · exact UInt8.lt_trans hlt (hy z hz)
  | case5 a x xs b y ys hne hlt ih =>
      have hx := (List.pairwise_cons.mp hxs).1
      obtain ⟨hy, hys⟩ := List.pairwise_cons.mp hys
      have hlt : b < a := UInt8.lt_of_le_of_ne (UInt8.not_lt.mp hlt) (Ne.symm hne)
      rw [align_cons, if_neg hne, if_neg (UInt8.lt_asymm hlt)]
      refine List.pairwise_cons.mpr ⟨fun e he => lt_of_mem_align ?_ hy he, ih hxs hys⟩
      intro z hz
      rcases List.mem_cons.mp hz with rfl | hz
      · exact hlt
      · exact UInt8.lt_trans hlt (hx z hz)

end Members

end RadixIndex.Static
