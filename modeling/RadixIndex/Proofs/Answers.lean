/-
# Answers and faults

Reasoning about operations that can stop with a fault: what comes after an answer
goes on with it, what answers as a whole has answered at every stage, and an operation
on every member of a list answers when it answers on each.  A check does not stop: it adds
what it finds wrong to a list.
-/
import RadixIndex.Fault
import Mathlib.Data.List.Forall2

namespace RadixIndex

variable {α β : Type}

@[simp]
theorem ok_bind (a : α) (f : α → Except Fault β) : (Except.ok a >>= f) = f a := rfl

@[simp]
theorem pure_eq_ok (a : α) : (pure a : Except Fault α) = .ok a := rfl

/-- An operation in two stages answers when the first stage does and the second goes on. -/
theorem bind_eq_ok {x : Except Fault α} {f : α → Except Fault β} {b : β} :
    (x >>= f) = .ok b ↔ ∃ a, x = .ok a ∧ f a = .ok b := by
  cases x with
  | error fault => exact ⟨nofun, fun ⟨_, h, _⟩ => absurd h nofun⟩
  | ok a => exact ⟨fun h => ⟨a, rfl, h⟩, fun ⟨_, rfl, h⟩ => h⟩

/-- Operations that go on alike from every answer of the first stage are the same. -/
theorem bind_congr_ok {x : Except Fault α} {f g : α → Except Fault β}
    (h : ∀ a, x = .ok a → f a = g a) : (x >>= f) = (x >>= g) := by
  cases x with
  | error fault => rfl
  | ok a => exact h a rfl

/-- An operation that has answered has met its condition. -/
theorem guard_eq_ok {p : Prop} [Decidable p] {f : p → α} {fault : Fault} {a : α}
    (h : (if hp : p then .ok (f hp) else .error fault) = Except.ok a) : ∃ hp, f hp = a := by
  split at h
  · exact ⟨_, Except.ok.inj h⟩
  · exact absurd h nofun

/-- An operation that has answered has not met the condition under which it stops. -/
theorem unless_eq_ok {p : Prop} [Decidable p] {x : α} {fault : Fault} {a : α}
    (h : (if p then .error fault else .ok x) = Except.ok a) : ¬ p ∧ x = a := by
  split at h
  · exact absurd h nofun
  · exact ⟨‹_›, Except.ok.inj h⟩

/-- A last stage that always answers adds no faults. -/
theorem bind_pure_eq_error {x : Except Fault α} {f : α → β} {fault : Fault} :
    (do return f (← x)) = .error fault ↔ x = .error fault := by
  cases x with
  | error fault' => exact ⟨fun h => congrArg _ (Except.error.inj h), fun h =>
      congrArg _ (Except.error.inj h)⟩
  | ok a => exact ⟨nofun, nofun⟩

theorem map_eq_ok {x : Except Fault α} {f : α → β} {b : β} :
    x.map f = .ok b ↔ ∃ a, x = .ok a ∧ f a = b := by
  cases x with
  | error fault => exact ⟨nofun, fun ⟨_, h, _⟩ => absurd h nofun⟩
  | ok a => exact ⟨fun h => ⟨a, rfl, Except.ok.inj h⟩, fun ⟨_, rfl, h⟩ => congrArg Except.ok h⟩

/-- What answers with a pair is known to answer when its first part is known. -/
theorem exists_of_map_fst {x : Except Fault (α × β)} {a : α} (h : x.map Prod.fst = .ok a) :
    ∃ b, x = .ok (a, b) := by
  obtain ⟨⟨_, b⟩, hx, rfl⟩ := map_eq_ok.mp h
  exact ⟨b, hx⟩

/-- What an operation answers on each member of a list, it answers on the list. -/
theorem mapM_ok {R : α → β → Prop} {f : α → Except Fault β} {l : List α}
    (h : ∀ x ∈ l, ∃ y, f x = .ok y ∧ R x y) :
    ∃ ys, l.mapM f = .ok ys ∧ List.Forall₂ R l ys := by
  induction l with
  | nil => exact ⟨[], rfl, .nil⟩
  | cons x l ih =>
      obtain ⟨y, hy, hR⟩ := h x List.mem_cons_self
      obtain ⟨ys, hys, hall⟩ := ih fun x' hx' => h x' (List.mem_cons_of_mem _ hx')
      refine ⟨y :: ys, ?_, .cons hR hall⟩
      rw [List.mapM_cons, hy, ok_bind, hys]
      rfl

/-- What answers on a list has answered on each member. -/
theorem exists_of_mapM {f : α → Except Fault β} {l : List α} {ys : List β}
    (h : l.mapM f = .ok ys) {x : α} (hx : x ∈ l) : ∃ y ∈ ys, f x = .ok y := by
  induction l generalizing ys with
  | nil => exact absurd hx List.not_mem_nil
  | cons x' l ih =>
      rw [List.mapM_cons] at h
      obtain ⟨y, hy, h⟩ := bind_eq_ok.mp h
      obtain ⟨ys', hys, h⟩ := bind_eq_ok.mp h
      obtain rfl := Except.ok.inj h
      rcases List.mem_cons.mp hx with rfl | hx
      · exact ⟨y, List.mem_cons_self, hy⟩
      · obtain ⟨y', hmem, hy'⟩ := ih hys hx
        exact ⟨y', List.mem_cons_of_mem _ hmem, hy'⟩

/-! ## Member by member -/

/-- Lists that agree member by member on a function agree on it as a whole. -/
theorem flatMap_eq_of_forall₂ {γ : Type} {R : α → β → Prop} {f : α → List γ} {g : β → List γ}
    {xs : List α} {ys : List β} (h : List.Forall₂ R xs ys) (hfg : ∀ x y, R x y → f x = g y) :
    xs.flatMap f = ys.flatMap g := by
  induction h with
  | nil => rfl
  | cons hxy _ ih => rw [List.flatMap_cons, List.flatMap_cons, ih, hfg _ _ hxy]

theorem map_eq_of_forall₂ {γ : Type} {R : α → β → Prop} {f : α → γ} {g : β → γ}
    {xs : List α} {ys : List β} (h : List.Forall₂ R xs ys) (hfg : ∀ x y, R x y → f x = g y) :
    xs.map f = ys.map g := by
  induction h with
  | nil => rfl
  | cons hxy _ ih => rw [List.map_cons, List.map_cons, ih, hfg _ _ hxy]

theorem exists_of_forall₂ {R : α → β → Prop} {xs : List α} {ys : List β}
    (h : List.Forall₂ R xs ys) {y : β} (hy : y ∈ ys) : ∃ x ∈ xs, R x y := by
  induction h with
  | nil => exact absurd hy List.not_mem_nil
  | cons hxy _ ih =>
      rcases List.mem_cons.mp hy with rfl | hy
      · exact ⟨_, List.mem_cons_self, hxy⟩
      · obtain ⟨x, hx, hR⟩ := ih hy
        exact ⟨x, List.mem_cons_of_mem _ hx, hR⟩

theorem exists_mem_iff_of_forall₂ {R : α → β → Prop} {P : α → Prop} {P' : β → Prop}
    {xs : List α} {ys : List β} (h : List.Forall₂ R xs ys) (hP : ∀ x y, R x y → (P x ↔ P' y)) :
    (∃ x ∈ xs, P x) ↔ ∃ y ∈ ys, P' y := by
  induction h with
  | nil => exact ⟨fun ⟨_, hx, _⟩ => absurd hx List.not_mem_nil,
      fun ⟨_, hy, _⟩ => absurd hy List.not_mem_nil⟩
  | cons hxy _ ih => rw [List.exists_mem_cons_iff, List.exists_mem_cons_iff, ih, hP _ _ hxy]

/-- A check that adds nothing to the list has passed. -/
theorem passed {p : Prop} [Decidable p] {x : α} (h : (if p then [] else [x]) = []) : p :=
  Decidable.byContradiction fun hnot => absurd ((if_neg hnot).symm.trans h) nofun

end RadixIndex
