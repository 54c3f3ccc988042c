/-
# Runs

What a structure does over any sequence of operations is proved against a model, a
pure function from a state and an operation to an answer and the next state.  If
single steps agree, so do whole runs, answer by answer and state by state
(`run_simulates`); in particular no step stops with a fault.  What one answer has to do with
the one before is proved step by step too (`run_linked`).

Where a step may stop, the sequence of its outcomes up to the first fault is the `trace`
of a run.
-/
import RadixIndex.Proofs.Answers

namespace RadixIndex

variable {σ μ ω α α' : Type}

/-- The answers to a sequence of operations, each with the state after it. -/
def run (step : σ → ω → Except Fault (α × σ)) : σ → List ω → Except Fault (List (α × σ))
  | _, [] => .ok []
  | s, o :: rest => do
      let (a, s) ← step s o
      return (a, s) :: (← run step s rest)

/-- The outcomes of a sequence of operations one after the other, the first fault being the
last of them. -/
def trace (step : σ → ω → Except Fault (α × σ)) : σ → List ω → List (Except Fault (α × σ))
  | _, [] => []
  | s, o :: rest =>
      match step s o with
      | .error fault => [.error fault]
      | .ok (a, s) => .ok (a, s) :: trace step s rest

/-- The answers of a model to a sequence of operations, each with the state after it. -/
def history (next : μ → ω → α × μ) : μ → List ω → List (α × μ)
  | _, [] => []
  | m, o :: rest => next m o :: history next (next m o).2 rest

/-- One step answers as the model does and keeps the relation to the model. -/
def StepSimulates (R : σ → μ → Prop) (step : σ → ω → Except Fault (α × σ))
    (next : μ → ω → α × μ) (allowed : ω → Prop) : Prop :=
  ∀ s m o, R s m → allowed o →
    ∃ s', step s o = .ok ((next m o).1, s') ∧ R s' (next m o).2

/-- Each operation of a sequence is allowed in the state that the model has come to. -/
def Along (next : μ → ω → α × μ) (allowed : μ → ω → Prop) : μ → List ω → Prop
  | _, [] => True
  | m, o :: rest => allowed m o ∧ Along next allowed (next m o).2 rest

theorem run_simulates_along {R : σ → μ → Prop} {step : σ → ω → Except Fault (α × σ)}
    {next : μ → ω → α × μ} {allowed : μ → ω → Prop}
    (hstep : ∀ s m o, R s m → allowed m o →
      ∃ s', step s o = .ok ((next m o).1, s') ∧ R s' (next m o).2) :
    ∀ {ops : List ω} {s : σ} {m : μ}, R s m → Along next allowed m ops →
      ∃ states, run step s ops = .ok states ∧
        List.Forall₂ (fun x y => x.1 = y.1 ∧ R x.2 y.2) states (history next m ops)
  | [], _, _, _, _ => ⟨[], rfl, .nil⟩
  | o :: ops, s, m, h, ⟨ho, hops⟩ => by
      obtain ⟨s', hs, h'⟩ := hstep s m o h ho
      obtain ⟨states, hrun, hall⟩ := run_simulates_along hstep h' hops
      refine ⟨((next m o).1, s') :: states, ?_, .cons ⟨rfl, h'⟩ hall⟩
      rw [run, hs, ok_bind]
      dsimp only
      rw [hrun]
      rfl

theorem along_of_forall {next : μ → ω → α × μ} {allowed : ω → Prop} :
    ∀ {ops : List ω} {m : μ}, (∀ o ∈ ops, allowed o) → Along next (fun _ => allowed) m ops
  | [], _, _ => trivial
  | o :: _, _, h => ⟨h o List.mem_cons_self,
      along_of_forall fun o' ho' => h o' (List.mem_cons_of_mem _ ho')⟩

theorem run_simulates {R : σ → μ → Prop} {step : σ → ω → Except Fault (α × σ)}
    {next : μ → ω → α × μ} {allowed : ω → Prop} (hstep : StepSimulates R step next allowed)
    {ops : List ω} {s : σ} {m : μ} (h : R s m) (hops : ∀ o ∈ ops, allowed o) :
    ∃ states, run step s ops = .ok states ∧
      List.Forall₂ (fun x y => x.1 = y.1 ∧ R x.2 y.2) states (history next m ops) :=
  run_simulates_along hstep h (along_of_forall hops)

theorem length_run {step : σ → ω → Except Fault (α × σ)} :
    ∀ {ops : List ω} {s : σ} {states : List (α × σ)}, run step s ops = .ok states →
      states.length = ops.length
  | [], _, _, hrun => by
      rw [← Except.ok.inj hrun]
      rfl
  | o :: ops, s, _, hrun => by
      obtain ⟨_, _, hrun⟩ := bind_eq_ok.mp hrun
      obtain ⟨rest, hrest, hrun⟩ := bind_eq_ok.mp hrun
      rw [← Except.ok.inj hrun, List.length_cons, List.length_cons, length_run hrest]

/-- If each answer is linked to the one before, so are those of a whole run, one by one. -/
theorem run_linked {β : Type} (link : β → β → Prop) (view : α → β) {R : β → σ → μ → Prop}
    {step : σ → ω → Except Fault (α × σ)} {next : μ → ω → α' × μ} {allowed : μ → ω → Prop}
    (hstep : ∀ b s m o, R b s m → allowed m o →
      ∃ a s', step s o = .ok (a, s') ∧ link b (view a) ∧ R (view a) s' (next m o).2) :
    ∀ {ops : List ω} {b : β} {s : σ} {m : μ}, R b s m → Along next allowed m ops →
      ∃ states, run step s ops = .ok states ∧
        List.IsChain link (b :: states.map fun x => view x.1)
  | [], _, _, _, _, _ => ⟨[], rfl, .singleton _⟩
  | o :: ops, b, s, m, h, ⟨ho, hops⟩ => by
      obtain ⟨a, s', hs, hlink, h'⟩ := hstep b s m o h ho
      obtain ⟨states, hrun, hchain⟩ := run_linked link view hstep h' hops
      refine ⟨(a, s') :: states, ?_, .cons_cons hlink hchain⟩
      rw [run, hs, ok_bind]
      dsimp only
      rw [hrun]
      rfl

/-- Answers that tell less come from a run that is the same otherwise. -/
theorem run_forget {step : σ → ω → Except Fault (α × σ)}
    {step' : σ → ω → Except Fault (α' × σ)} {f : α → α'}
    (h : ∀ s o a s', step s o = .ok (a, s') → step' s o = .ok (f a, s')) :
    ∀ {ops : List ω} {s : σ} {states : List (α × σ)}, run step s ops = .ok states →
      run step' s ops = .ok (states.map fun x => (f x.1, x.2))
  | [], _, _, hrun => by
      rw [← Except.ok.inj hrun]
      rfl
  | o :: ops, s, _, hrun => by
      obtain ⟨⟨a, s'⟩, hs, hrun⟩ := bind_eq_ok.mp hrun
      obtain ⟨rest, hrest, hrun⟩ := bind_eq_ok.mp hrun
      rw [← Except.ok.inj hrun, run, h s o a s' hs, ok_bind]
      dsimp only
      rw [run_forget h hrest]
      rfl

end RadixIndex
