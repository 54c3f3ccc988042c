/-
# What an operation asks

Two things are said of an operation with its questions.

    run_bind   a run goes through an operation stage by stage, so that what an operation
               answers is worked out as for one without questions
    Confined   all that the operation asks is about records of a set and for keys of one
               length, whatever the answers to its questions, and what it answers itself
               has a property

A confined operation cannot tell loaders apart that agree on the set at that length
(`Confined.run_eq`), not even by a loader that stops, and in every run it asks the same
questions (`Confined.questions_eq`), which are of that kind (`Confined.mem_questions`).
-/
import RadixIndex.Asking.Basic
import RadixIndex.Proofs.Answers
import Mathlib.Data.Set.Insert

namespace RadixIndex

variable {α β : Type}

namespace Asking

/-! ## Stages -/

theorem ask_bind (q : Question) (next : Key → Asking α) (f : α → Asking β) :
    (Asking.ask q next >>= f) = .ask q fun key => next key >>= f := rfl

theorem bind_answer (x : Asking α) : (x >>= Asking.answer) = x := by
  induction x with
  | answer a => rfl
  | stop fault => rfl
  | ask q next ih => exact congrArg (Asking.ask q) (funext ih)

theorem bind_bind {γ : Type} (x : Asking α) (f : α → Asking β) (g : β → Asking γ) :
    (x >>= f >>= g) = x >>= fun a => f a >>= g := by
  induction x with
  | answer a => rfl
  | stop fault => rfl
  | ask q next ih => exact congrArg (Asking.ask q) (funext ih)

instance : LawfulMonad Asking := .mk' Asking bind_answer (fun _ _ => rfl) bind_bind

/-! ## Runs -/

section

variable (L : PartialLoader)

@[simp]
theorem run_pure (a : α) : (pure a : Asking α).run L = .ok a := rfl

@[simp]
theorem run_stop (fault : Fault) : (Asking.stop fault : Asking α).run L = .error fault := rfl

@[simp]
theorem run_liftM (x : Except Fault α) : (liftM x : Asking α).run L = x := by
  cases x <;> rfl

@[simp]
theorem run_load (r : Record) (n : Nat) : (load r n).run L = L.load r n := by
  show (L.load r n >>= fun key => .ok key) = L.load r n
  cases L.load r n <;> rfl

@[simp]
theorem run_bind (x : Asking α) (f : α → Asking β) :
    (x >>= f).run L = x.run L >>= fun a => (f a).run L := by
  induction x with
  | answer a => rfl
  | stop fault => rfl
  | ask q next ih =>
      rw [ask_bind, run, run, bind_assoc]
      exact bind_congr ih

@[simp]
theorem run_mapM (l : List α) (f : α → Asking β) :
    (l.mapM f).run L = l.mapM fun a => (f a).run L := by
  induction l with
  | nil => rfl
  | cons a l ih =>
      rw [List.mapM_cons, List.mapM_cons, run_bind]
      refine bind_congr fun b => ?_
      rw [run_bind, ih]
      rfl

@[simp]
theorem run_ite (p : Prop) [Decidable p] (x y : Asking α) :
    (if p then x else y).run L = if p then x.run L else y.run L := apply_ite ..

end

end Asking

/-! ## Operations that are confined -/

/-- The loaders do the same when they are asked for the keys of `n` bytes of records of the
set. -/
def PartialLoader.AgreesOn (L L' : PartialLoader) (n : Nat) (S : Set Record) : Prop :=
  ∀ r ∈ S, L.load r n = L'.load r n

/-- What the operation asks is about records of the set and for keys of `n` bytes, and what it
answers has the property. -/
inductive Asking.Confined (S : Set Record) (n : Nat) (P : α → Prop) : Asking α → Prop
  | answer {a : α} : P a → Confined S n P (.answer a)
  | stop (fault : Fault) : Confined S n P (.stop fault)
  | ask {q : Question} {next : Key → Asking α} : q.record ∈ S → q.length = n →
      (∀ key, Confined S n P (next key)) → Confined S n P (.ask q next)

namespace Asking.Confined

variable {S : Set Record} {n : Nat} {P : α → Prop} {R : β → Prop} {x : Asking α}
  {L L' : PartialLoader}

/-! ### Making confined operations -/

theorem pure {a : α} (h : P a) : (Pure.pure a : Asking α).Confined S n P := .answer h

/-- Nothing was found, so nothing need be known of it. -/
theorem none : (Pure.pure none : Asking (Option α)).Confined S n fun o => ∀ a ∈ o, P a :=
  .answer nofun

theorem some {a : α} (h : P a) :
    (Pure.pure (some a) : Asking (Option α)).Confined S n fun o => ∀ b ∈ o, P b :=
  .answer fun _ hb => Option.some.inj hb ▸ h

/-- An operation without questions asks nothing that it should not. -/
theorem liftM {y : Except Fault α} (h : ∀ a, y = .ok a → P a) :
    (MonadLiftT.monadLift y : Asking α).Confined S n P := by
  cases y with
  | ok a => exact .answer (h a rfl)
  | error fault => exact .stop fault

/-- Nothing need be known of what is answered. -/
theorem any (y : Except Fault α) :
    (MonadLiftT.monadLift y : Asking α).Confined S n fun _ => True := .liftM fun _ _ => trivial

theorem load {r : Record} (hr : r ∈ S) : (load r n).Confined S n fun _ => True :=
  .ask hr rfl fun _ => .answer trivial

theorem bind {f : α → Asking β} (h : x.Confined S n P)
    (hf : ∀ a, P a → (f a).Confined S n R) : (x >>= f).Confined S n R := by
  induction h with
  | answer ha => exact hf _ ha
  | stop fault => exact .stop fault
  | ask hr hn _ ih => exact .ask hr hn ih

/-- What was found is put into something else. -/
theorem mapSome {y : Asking (Option α)} {f : α → β} (h : y.Confined S n fun o => ∀ a ∈ o, P a)
    (hf : ∀ a, P a → R (f a)) :
    (y >>= fun o => Pure.pure (o.map f)).Confined S n fun o => ∀ b ∈ o, R b := by
  refine h.bind fun o ho => .answer fun b hb => ?_
  obtain ⟨a, ha, rfl⟩ := Option.map_eq_some_iff.mp hb
  exact hf a (ho a ha)

theorem mapM {l : List α} {f : α → Asking β} (h : ∀ a ∈ l, (f a).Confined S n R) :
    (l.mapM f).Confined S n fun bs => ∀ b ∈ bs, R b := by
  induction l with
  | nil => exact .answer fun _ hb => absurd hb List.not_mem_nil
  | cons a l ih =>
      rw [List.mapM_cons]
      refine .bind (h a List.mem_cons_self) fun b hb => ?_
      refine .bind (ih fun a' ha' => h a' (List.mem_cons_of_mem _ ha')) fun bs hbs => ?_
      exact .answer (List.forall_mem_cons.mpr ⟨hb, hbs⟩)

/-! ### What they cannot tell -/

theorem run_eq (h : x.Confined S n P) (hL : L.AgreesOn L' n S) : x.run L = x.run L' := by
  induction h with
  | answer _ => rfl
  | stop _ => rfl
  | @ask q next hr hn _ ih =>
      rw [run, run, hn, hL q.record hr]
      exact bind_congr ih

theorem questions_eq (h : x.Confined S n P) (hL : L.AgreesOn L' n S) :
    x.questions L = x.questions L' := by
  induction h with
  | answer _ => rfl
  | stop _ => rfl
  | @ask q next hr hn _ ih =>
      rw [questions, questions, hn, hL q.record hr]
      cases L'.load q.record n with
      | ok key => exact congrArg (q :: ·) (ih key)
      | error fault => rfl

theorem mem_questions (h : x.Confined S n P) :
    ∀ q ∈ x.questions L, q.record ∈ S ∧ q.length = n := by
  induction h with
  | answer _ => exact nofun
  | stop _ => exact nofun
  | @ask q next hr hn _ ih =>
      intro q' hq'
      rw [questions] at hq'
      rcases List.mem_cons.mp hq' with rfl | hq'
      · exact ⟨hr, hn⟩
      · split at hq'
        · exact ih _ q' hq'
        · exact absurd hq' List.not_mem_nil

/-- What a run answers has the property. -/
theorem of_run (h : x.Confined S n P) {a : α} (ha : x.run L = .ok a) : P a := by
  induction h with
  | answer hp => exact Except.ok.inj ha ▸ hp
  | stop _ => exact absurd ha nofun
  | ask _ _ _ ih =>
      obtain ⟨key, -, hnext⟩ := bind_eq_ok.mp ha
      exact ih key hnext

end Asking.Confined

end RadixIndex
