/-
# Operations that ask for keys

A `Loader` always answers, and that it was asked leaves no trace.  The loaders that there are
need not be so good-natured: one that looks records up in a table stops when it is asked about
a record that is not there, or for a key of another length than those in the table.

So here an operation is written down with its questions.  An `Asking` answers, stops with a
fault, or asks for the key of a record and goes on in a way that may depend on the key.  It has
no loader.  With one it can be run, and a `PartialLoader` is enough for that: the run stops where
the loader does.  What was asked on the way is listed by `Asking.questions`.

The modules of this directory give every operation that loads keys in this form, each question
where it is asked and as often as it is asked.  With a loader that always answers they do what
the operations of the other modules do.
-/
import RadixIndex.Key.Loader

namespace RadixIndex

/-- A question to a loader: what is the key of `length` bytes of the record? -/
structure Question where
  record : Record
  length : Nat
  deriving DecidableEq, Repr

/-! ## Loaders that may stop -/

/-- A way from a record to its key of a given length, which may stop with any fault. -/
structure PartialLoader where
  load : Record → Nat → Except Fault Key
  length_load : ∀ (r : Record) (n : Nat) (key : Key), load r n = .ok key → key.length = n

namespace PartialLoader

/-- The key of record `r` is row `r` of a table.  A record without a row has no key, and a row
is a key of its own length only. -/
def table (rows : List Key) : PartialLoader where
  load r n :=
    match rows[r.toNat]? with
    | none => .error .range
    | some row => if row.length = n then .ok row else .error .range
  length_load r n key h := by
    split at h
    · contradiction
    · split at h
      · exact Except.ok.inj h ▸ ‹_›
      · contradiction

end PartialLoader

/-- A loader that always answers. -/
def Loader.toPartial (L : Loader) : PartialLoader where
  load r n := .ok (L.load r n)
  length_load r n _ h := Except.ok.inj h ▸ L.length_load r n

/-! ## Asking -/

/-- An operation with its questions. -/
inductive Asking (α : Type) where
  | answer (a : α)
  | stop (fault : Fault)
  | ask (q : Question) (next : Key → Asking α)

namespace Asking

variable {α β : Type}

/-- One operation after the other. -/
def andThen : Asking α → (α → Asking β) → Asking β
  | .answer a, f => f a
  | .stop fault, _ => .stop fault
  | .ask q next, f => .ask q fun key => (next key).andThen f

instance : Monad Asking where
  pure := .answer
  bind := andThen

/-- An operation without questions. -/
def silent : Except Fault α → Asking α
  | .ok a => .answer a
  | .error fault => .stop fault

instance : MonadLift (Except Fault) Asking := ⟨silent⟩

/-- Asks for the key of `n` bytes of the record `r`. -/
def load (r : Record) (n : Nat) : Asking Key := .ask ⟨r, n⟩ .answer

/-- What the operation answers when its questions go to a loader. -/
def run (L : PartialLoader) : Asking α → Except Fault α
  | .answer a => .ok a
  | .stop fault => .error fault
  | .ask q next => do (next (← L.load q.record q.length)).run L

/-- What the loader is asked in the run, one question after the other. -/
def questions (L : PartialLoader) : Asking α → List Question
  | .answer _ => []
  | .stop _ => []
  | .ask q next =>
      q :: match L.load q.record q.length with
        | .ok key => (next key).questions L
        | .error _ => []

end Asking

end RadixIndex
