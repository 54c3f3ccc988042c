/-
# Moves are rare

A node that grows or shrinks moves all its children, so it had better not do so on every call.
It does not, since the points of growth and of shrinking are apart.  A node is *at rest* when
neither one child more nor one less makes it move (`AtRest`).

    answer_rests        a call that makes a move finds a node that is not at rest, and leaves
                        one that is
    calls_rarely_move   so no two calls in a row make a move, and of any calls from a new node
                        on at most every other one does

Moves are counted where they are made, by the operations of `RadixIndex.Dynamic.Moves`.  Their
account tells what can be seen from outside: a call that leaves the size of a node as it is has
made no move, and any other call has made one (`Moving.step_eq`).
-/
import RadixIndex.Dynamic.Moves
import RadixIndex.Proofs.Dynamic.Branches

namespace RadixIndex.Dynamic

/-! ## Sizes -/

namespace Size

theorem larger_ne {size : Size} (h : size ≠ .full) : size.larger ≠ size := by
  cases size <;> first | exact absurd rfl h | decide

theorem smaller_ne {size : Size} (h : size ≠ .four) : size.smaller ≠ size := by
  cases size <;> first | exact absurd rfl h | decide

/-- A node that has grown has room for another child, and one to spare. -/
theorem larger_rests {size : Size} (h : size ≠ .full) :
    size.capacity + 1 < size.larger.capacity ∧
      Node.shrinksAt size.larger size.capacity = false := by
  cases size <;> first | exact absurd rfl h | decide

/-- So has a node that has shrunk. -/
theorem smaller_rests {size : Size} {k : Nat} (h : Node.shrinksAt size k = true) :
    k < size.smaller.capacity ∧ Node.shrinksAt size.smaller (k - 1) = false := by
  unfold Node.shrinksAt at h
  split at h
  · decide
  · decide
  · decide
  · exact absurd h Bool.false_ne_true

end Size

namespace Node

/-! ## What a call does to the size and the number of children

This holds of every node, whatever is in its slots. -/

/-- The node has a size and a number of children. -/
structure Measures (n : Node) (size' : Size) (count' : Nat) : Prop where
  size_eq : size n = size'
  count_eq : n.count = count'

theorem measures_build (h : Header) (cell : Fin (NodeHeader.width h) → Tree) :
    Measures (.build h cell) h.layout.size h.layout.count := by
  rw [RadixIndex.Node.build_eq]
  exact ⟨rfl, rfl⟩

section

variable {n n' m : Node} {x x' : Node × Stats} {b : UInt8} {t : Tree} {s s' : Stats}
  {call : ChildCall} {a : Option Tree}

theorem grow_measures (h : grow n = .ok n') :
    size n ≠ .full ∧ Measures n' (size n).larger n.count := by
  obtain ⟨⟨stem, layout⟩, child⟩ := n
  cases layout with
  | four keys used | sixteen keys used | fortyEight table count =>
      obtain rfl := Except.ok.inj h
      exact ⟨nofun, measures_build _ _⟩
  | full count => exact absurd h nofun

theorem shrink_measures (h : shrink n = .ok n') :
    size n ≠ .four ∧ Measures n' (size n).smaller n.count := by
  obtain ⟨⟨stem, layout⟩, child⟩ := n
  cases layout with
  | four keys used => exact absurd h nofun
  | sixteen keys used | fortyEight table count | full count =>
      obtain ⟨_, rfl⟩ := guard_eq_ok h
      exact ⟨nofun, measures_build _ _⟩

theorem place_measures (h : place b t n = .ok n') : Measures n' (size n) (n.count + 1) := by
  obtain ⟨⟨stem, layout⟩, child⟩ := n
  cases layout with
  | four keys used | sixteen keys used | fortyEight table count =>
      obtain ⟨_, rfl⟩ := guard_eq_ok h
      exact measures_build _ _
  | full count =>
      obtain rfl := Except.ok.inj h
      exact measures_build _ _

theorem extract_measures (h : extract b n = some (t, m)) : Measures m (size n) n.count := by
  obtain ⟨⟨stem, layout⟩, child⟩ := n
  cases layout with
  | four keys used | sixteen keys used | fortyEight table count =>
      obtain ⟨i, -, hi⟩ := Option.map_eq_some_iff.mp h
      obtain ⟨-, rfl⟩ := Prod.mk.inj hi
      exact measures_build _ _
  | full count =>
      obtain ⟨-, rfl⟩ := Prod.mk.inj (Option.some.inj h)
      exact measures_build _ _

theorem countDown_measures (h : countDown n = .ok n') : Measures n' (size n) (n.count - 1) := by
  obtain ⟨⟨stem, layout⟩, child⟩ := n
  cases layout with
  | four keys used | sixteen keys used | fortyEight table count | full count =>
      obtain ⟨_, rfl⟩ := unless_eq_ok h
      exact ⟨rfl, rfl⟩

/-- Adding a child either leaves the size of the node and the counts as they are, or makes a full
node move to the next larger size, which the counts follow.  Nothing else depends on the counts. -/
theorem addChild_cases (h : addChild n b t s = .ok (n', s')) :
    (size n' = size n ∧ s' = s ∧ ∀ r, addChild n b t r = .ok (n', r)) ∨
      ((size n).capacity ≤ n.count ∧ size n ≠ .full ∧
        Measures n' (size n).larger (n.count + 1) ∧ s.replace (size n) (size n') = .ok s' ∧
          ∀ r r', r.replace (size n) (size n') = .ok r' → addChild n b t r = .ok (n', r')) := by
  simp only [addChild] at h ⊢
  by_cases hfull : isFull n
  · simp only [if_pos hfull] at h ⊢
    obtain ⟨larger, hgrow, h⟩ := bind_eq_ok.mp h
    obtain ⟨replaced, hreplace, h⟩ := bind_eq_ok.mp h
    obtain ⟨placed, hplace, h⟩ := bind_eq_ok.mp h
    obtain ⟨rfl, rfl⟩ := Prod.mk.inj (Except.ok.inj h)
    obtain ⟨hnot, hlarger⟩ := grow_measures hgrow
    have hplaced := place_measures hplace
    rw [← hplaced.size_eq] at hreplace
    rw [hlarger.size_eq, hlarger.count_eq] at hplaced
    refine Or.inr ⟨of_decide_eq_true hfull, hnot, hplaced, hreplace, fun r r' hr => ?_⟩
    rw [hplaced.size_eq, ← hlarger.size_eq] at hr
    simp [hgrow, hr, hplace]
  · simp only [if_neg hfull] at h ⊢
    obtain ⟨placed, hplace, h⟩ := bind_eq_ok.mp h
    obtain ⟨rfl, rfl⟩ := Prod.mk.inj (Except.ok.inj h)
    exact Or.inl ⟨(place_measures hplace).size_eq, rfl, fun r => by simp [hplace]⟩

/-- Removing a child either leaves the size of the node and the counts as they are, or makes a
node that is due to shrink move to the next smaller size, which the counts follow.  Nothing else
depends on the counts. -/
theorem removeChild_cases (h : removeChild n b s = .ok (t, n', s')) :
    (size n' = size n ∧ s' = s ∧ ∀ r, removeChild n b r = .ok (t, n', r)) ∨
      (shrinksAt (size n) (n.count - 1) = true ∧
        Measures n' (size n).smaller (n.count - 1) ∧ s.replace (size n) (size n') = .ok s' ∧
          ∀ r r', r.replace (size n) (size n') = .ok r' →
            removeChild n b r = .ok (t, n', r')) := by
  cases hextract : extract b n with
  | none =>
      simp only [removeChild, hextract] at h ⊢
      obtain ⟨rfl, rfl, rfl⟩ := by simpa using h
      exact Or.inl ⟨rfl, rfl, fun r => rfl⟩
  | some e =>
      obtain ⟨u, m⟩ := e
      obtain ⟨hsize, hcount⟩ := extract_measures hextract
      by_cases hu : u = .empty
      · subst hu
        simp only [removeChild, hextract] at h ⊢
        obtain ⟨rfl, rfl, rfl⟩ := by simpa using h
        exact Or.inl ⟨hsize, rfl, fun r => rfl⟩
      · simp only [removeChild_of_extract hextract hu] at h ⊢
        obtain ⟨less, hdown, h⟩ := bind_eq_ok.mp h
        have hless := countDown_measures hdown
        rw [hsize, hcount] at hless
        simp only [hdown, ok_bind, hless.size_eq, hless.count_eq] at h ⊢
        by_cases hshrinks : shrinksAt (size n) (n.count - 1)
        · simp only [if_pos hshrinks] at h ⊢
          obtain ⟨smaller, hshrink, h⟩ := bind_eq_ok.mp h
          obtain ⟨replaced, hreplace, h⟩ := bind_eq_ok.mp h
          obtain ⟨rfl, rfl, rfl⟩ := by simpa using h
          obtain ⟨-, hsmaller⟩ := shrink_measures hshrink
          rw [hless.size_eq, hless.count_eq] at hsmaller
          exact Or.inr ⟨hshrinks, hsmaller, hreplace, fun r r' hr => by simp [hshrink, hr]⟩
        · simp only [if_neg hshrinks] at h ⊢
          obtain ⟨rfl, rfl, rfl⟩ := by simpa using h
          exact Or.inl ⟨hless.size_eq, rfl, fun r => rfl⟩

/-! ## Rest -/

/-- Neither one child more nor one less makes the node move. -/
structure AtRest (n : Node) : Prop where
  room : n.count < (size n).capacity
  spare : shrinksAt (size n) (n.count - 1) = false

/-- A call that makes a node move finds it on the verge of it, and leaves it at rest. -/
theorem answer_rests (hcap : x.1.count ≤ (size x.1).capacity)
    (h : answer x call = .ok (a, x')) (hmoved : size x'.1 ≠ size x.1) :
    ¬ AtRest x.1 ∧ AtRest x'.1 := by
  cases call with
  | add b t =>
      obtain ⟨⟨n', s'⟩, hadd, h⟩ := bind_eq_ok.mp h
      obtain ⟨-, rfl⟩ := by simpa using h
      rcases addChild_cases hadd with ⟨hsize, -, -⟩ | ⟨hfull, hnot, ⟨hsize, hcount⟩, -, -⟩
      · exact absurd hsize hmoved
      · obtain ⟨hroom, hspare⟩ := Size.larger_rests hnot
        rw [← Nat.le_antisymm hcap hfull] at hroom hspare
        refine ⟨fun hrest => absurd hrest.room (Nat.not_lt.mpr hfull), ?_, ?_⟩
        · rwa [hsize, hcount]
        · rwa [hsize, hcount, Nat.add_sub_cancel]
  | remove b =>
      obtain ⟨⟨u, n', s'⟩, hremove, h⟩ := bind_eq_ok.mp h
      obtain ⟨-, rfl⟩ := by simpa using h
      rcases removeChild_cases hremove with ⟨hsize, -, -⟩ | ⟨hshrinks, ⟨hsize, hcount⟩, -, -⟩
      · exact absurd hsize hmoved
      · obtain ⟨hroom, hspare⟩ := Size.smaller_rests hshrinks
        refine ⟨fun hrest => ?_, ?_, ?_⟩
        · rw [hrest.spare] at hshrinks
          exact absurd hshrinks Bool.false_ne_true
        · rwa [hsize, hcount]
        · rwa [hsize, hcount]

/-- A call leaves the counts of other nodes as they are. -/
theorem answer_frame (h : answer x call = .ok (a, x')) (others : Stats) :
    answer (x.1, x.2 + others) call = .ok (a, x'.1, x'.2 + others) := by
  cases call with
  | add b t =>
      obtain ⟨⟨n', s'⟩, hadd, h⟩ := bind_eq_ok.mp h
      obtain ⟨rfl, rfl⟩ := by simpa using h
      rcases addChild_cases hadd with ⟨-, rfl, hall⟩ | ⟨-, -, -, hreplace, hall⟩
      · simp [answer, hall]
      · simp [answer, hall _ _ (Stats.replace_add hreplace others)]
  | remove b =>
      obtain ⟨⟨u, n', s'⟩, hremove, h⟩ := bind_eq_ok.mp h
      obtain ⟨rfl, rfl⟩ := by simpa using h
      rcases removeChild_cases hremove with ⟨-, rfl, hall⟩ | ⟨-, -, hreplace, hall⟩
      · simp [answer, hall]
      · simp [answer, hall _ _ (Stats.replace_add hreplace others)]

end

end Node

/-! ## The account -/

/-- The account of a call that takes a node from one size to another. -/
def Move.between (source target : Size) : List Move :=
  if source = target then [] else [⟨source, target⟩]

namespace Move

variable {source target : Size}

theorem between_of_eq (h : target = source) : between source target = [] := if_pos h.symm

theorem between_of_ne (h : target ≠ source) : between source target = [⟨source, target⟩] :=
  if_neg h.symm

end Move

namespace Moving

/-- What a node answers, with its counts, and what it is after it. -/
def answer (x : Node × Stats) : ChildCall → Moving (Option Tree × Node × Stats)
  | .add b t => do return (none, ← addChild x.1 b t x.2)
  | .remove b => do
      let (t, x) ← removeChild x.1 b x.2
      return (some t, x)

/-- A call, with the moves that it makes. -/
def step (x : Node × Stats) (call : ChildCall) :
    Except Fault ((Option Tree × List Move) × Node × Stats) := do
  let ((a, x), moves) ← (answer x call).run []
  return ((a, moves), x)

theorem grow_run (n : Node) (account : List Move) :
    (grow n).run account = do
      let larger ← Node.grow n
      return (larger, account ++ Move.between (Node.size n) (Node.size larger)) := by
  simp only [grow, note, StateT.run_bind, StateT.run_monadLift, StateT.run_modify,
    StateT.run_pure, monadLift_self, bind_assoc, pure_bind]
  refine bind_congr_ok fun larger hgrow => ?_
  obtain ⟨hnot, hlarger⟩ := Node.grow_measures hgrow
  rw [hlarger.size_eq, Move.between_of_ne (Size.larger_ne hnot)]

theorem shrink_run (n : Node) (account : List Move) :
    (shrink n).run account = do
      let smaller ← Node.shrink n
      return (smaller, account ++ Move.between (Node.size n) (Node.size smaller)) := by
  simp only [shrink, note, StateT.run_bind, StateT.run_monadLift, StateT.run_modify,
    StateT.run_pure, monadLift_self, bind_assoc, pure_bind]
  refine bind_congr_ok fun smaller hshrink => ?_
  obtain ⟨hnot, hsmaller⟩ := Node.shrink_measures hshrink
  rw [hsmaller.size_eq, Move.between_of_ne (Size.smaller_ne hnot)]

theorem addChild_run (n : Node) (b : UInt8) (t : Tree) (s : Stats) (account : List Move) :
    (addChild n b t s).run account = do
      let x ← Node.addChild n b t s
      return (x, account ++ Move.between (Node.size n) (Node.size x.1)) := by
  rw [addChild, Node.addChild]
  by_cases hfull : Node.isFull n
  · simp only [hfull, if_true, grow_run, StateT.run_bind, StateT.run_monadLift, StateT.run_pure,
      monadLift_self, bind_assoc, pure_bind]
    refine bind_congr_ok fun larger _ => ?_
    refine bind_congr_ok fun s' _ => ?_
    refine bind_congr_ok fun n' hplace => ?_
    rw [(Node.place_measures hplace).size_eq]
  · simp only [hfull, Bool.false_eq_true, if_false, StateT.run_bind, StateT.run_monadLift,
      StateT.run_pure, monadLift_self, bind_assoc, pure_bind]
    refine bind_congr_ok fun n' hplace => ?_
    rw [Move.between_of_eq (Node.place_measures hplace).size_eq, List.append_nil]

theorem removeChild_of_extract {n m : Node} {b : UInt8} {t : Tree} {s : Stats}
    (h : Node.extract b n = some (t, m)) (ht : t ≠ .empty) :
    removeChild n b s = (do
      let n ← Node.countDown m
      if Node.shrinksAt (Node.size n) n.count then
        let smaller ← shrink n
        return (t, smaller, ← s.replace (Node.size n) (Node.size smaller))
      else
        return (t, n, s)) := by
  rw [removeChild, h]
  cases t with
  | empty => exact absurd rfl ht
  | leaf r => rfl
  | node h c => rfl

theorem removeChild_run (n : Node) (b : UInt8) (s : Stats) (account : List Move) :
    (removeChild n b s).run account = do
      let x ← Node.removeChild n b s
      return (x, account ++ Move.between (Node.size n) (Node.size x.2.1)) := by
  cases hextract : Node.extract b n with
  | none => simp [removeChild, Node.removeChild, hextract, Move.between_of_eq]
  | some e =>
      obtain ⟨t, m⟩ := e
      have hsize := (Node.extract_measures hextract).size_eq
      by_cases ht : t = .empty
      · subst ht
        simp [removeChild, Node.removeChild, hextract, Move.between_of_eq hsize]
      · rw [removeChild_of_extract hextract ht, Node.removeChild_of_extract hextract ht]
        simp only [StateT.run_bind, StateT.run_monadLift, monadLift_self, bind_assoc, pure_bind]
        refine bind_congr_ok fun less hdown => ?_
        have hless : Node.size less = Node.size n :=
          (Node.countDown_measures hdown).size_eq.trans hsize
        by_cases hshrinks : Node.shrinksAt (Node.size less) less.count
        · rw [if_pos hshrinks, if_pos hshrinks]
          simp [shrink_run, hless]
        · simp [hshrinks, Move.between_of_eq hless]

/-- A call answers as without the account, and the account is of its change of size. -/
theorem step_eq (x : Node × Stats) (call : ChildCall) :
    step x call = do
      let (a, x') ← Node.answer x call
      return ((a, Move.between (Node.size x.1) (Node.size x'.1)), x') := by
  cases call with
  | add b t => simp [step, answer, Node.answer, addChild_run]
  | remove b => simp [step, answer, Node.answer, removeChild_run]

theorem of_step {x x' : Node × Stats} {call : ChildCall} {a : Option Tree × List Move}
    (h : step x call = .ok (a, x')) : Node.answer x call = .ok (a.1, x') ∧
      a.2 = Move.between (Node.size x.1) (Node.size x'.1) := by
  rw [step_eq] at h
  obtain ⟨_, hanswer, heq⟩ := bind_eq_ok.mp h
  obtain ⟨rfl, rfl⟩ := Prod.mk.inj (Except.ok.inj heq)
  exact ⟨hanswer, rfl⟩

/-! ## Calls one after the other -/

/-- The node keeps the map, is counted beside others, and is at rest if the last call made a
move. -/
structure Paced (others : Stats) (last : Nat) (x : Node × Stats) (m : Branches) : Prop where
  keeps : Node.Keeps (x.1, .one (Node.size x.1)) m
  stats : x.2 = .one (Node.size x.1) + others
  rest : last = 0 ∨ last = 1 ∧ Node.AtRest x.1

/-- A new node is at rest, as if it had just made a move. -/
theorem paced_new (others : Stats) :
    Paced others 1 (Node.new Stem.nil, others.alloc .four) ∅ := by
  have hsize : Node.size (Node.new Stem.nil) = .four := (Node.measures_build _ _).size_eq
  have hcount : (Node.new Stem.nil).count = 0 := (Node.measures_build _ _).count_eq
  refine ⟨?_, ?_, Or.inr ⟨rfl, ?_, ?_⟩⟩
  · rw [hsize]
    exact Node.keeps_new
  · rw [hsize]
    exact Stats.alloc_eq others .four
  · rw [hsize, hcount]
    exact Nat.succ_pos 3
  · rw [hsize, hcount]
    rfl

/-- A call makes a move only if the one before has made none. -/
theorem step_paced {others : Stats} (last : Nat) (x : Node × Stats) (m : Branches)
    (call : ChildCall) (h : Paced others last x m) (hallowed : m.Allows call) :
    ∃ a x', step x call = .ok (a, x') ∧ last + a.2.length ≤ 1 ∧
      Paced others a.2.length x' (m.answer call).2 := by
  -- That a node keeps its map is known of a node counted alone, so the call is made there.
  obtain ⟨x', hx, hkeeps⟩ := Node.answer_ok _ m call h.keeps hallowed
  have hanswer := Node.answer_frame hx others
  rw [← h.stats] at hanswer
  have hstats := hkeeps.stats
  have hkeeps' : Node.Keeps (x'.1, .one (Node.size x'.1)) (m.answer call).2 := by
    rw [← hstats]
    exact hkeeps
  refine ⟨_, _, by rw [step_eq, hanswer]; rfl, ?_⟩
  by_cases hsize : Node.size x'.1 = Node.size x.1
  · rw [Move.between_of_eq hsize]
    refine ⟨?_, hkeeps', by rw [hstats], Or.inl rfl⟩
    rcases h.rest with hlast | ⟨hlast, -⟩ <;> simp [hlast]
  · have hcap := Node.count_le_capacity h.keeps.sound
    obtain ⟨hnot, hrest⟩ := Node.answer_rests hcap hx hsize
    have hlast : last = 0 := h.rest.resolve_right fun hr => hnot hr.2
    rw [Move.between_of_ne hsize]
    refine ⟨by simp [hlast], hkeeps', by rw [hstats], Or.inr ⟨rfl, hrest⟩⟩

/-- Numbers of which no two in a row exceed one sum up to half of how many there are. -/
theorem sum_le_half {k : Nat} {l : List Nat}
    (h : List.IsChain (fun k k' => k + k' ≤ 1) (k :: l)) (hk : k ≤ 1) :
    2 * l.sum + k ≤ l.length + 1 := by
  induction l generalizing k with
  | nil => simpa using hk
  | cons k' l ih =>
      obtain ⟨hpair, htail⟩ := List.isChain_cons_cons.mp h
      have hrest := ih htail (by omega)
      simp only [List.sum_cons, List.length_cons]
      omega

/-- The account of a run lists the changes of size from each state to the next. -/
theorem run_account : ∀ {calls : List ChildCall} {x : Node × Stats}
    {states : List ((Option Tree × List Move) × Node × Stats)}, run step x calls = .ok states →
      states.map (fun y => y.1.2) = List.zipWith
        (fun y z => Move.between (Node.size y.1) (Node.size z.1))
        (x :: states.map Prod.snd) (states.map Prod.snd)
  | [], _, _, hrun => by
      rw [← Except.ok.inj hrun]
      rfl
  | call :: calls, x, _, hrun => by
      obtain ⟨y, hstep, hrun⟩ := bind_eq_ok.mp hrun
      obtain ⟨rest, hrest, hrun⟩ := bind_eq_ok.mp hrun
      rw [← Except.ok.inj hrun]
      simp [run_account hrest, (of_step hstep).2]

/-- The states after calls, with the moves of each call, when there are few moves. -/
structure MovesRarely (start : Node × Stats) (calls : List ChildCall)
    (states : List ((Option Tree × List Move) × Node × Stats)) : Prop where
  /-- What is put down for a call is the change of size that can be seen. -/
  seen : states.map (fun x => x.1.2) = List.zipWith
    (fun x y => Move.between (Node.size x.1) (Node.size y.1))
    (start :: states.map Prod.snd) (states.map Prod.snd)
  /-- No call makes more than one move. -/
  once : ∀ x ∈ states, x.1.2.length ≤ 1
  /-- Calls that make a move are at least two calls apart. -/
  apart : ∀ (i j : Nat) (_ : i < j) (_ : j < states.length),
    states[i].1.2 ≠ [] → states[j].1.2 ≠ [] → i + 2 ≤ j
  /-- There are at most half as many moves as calls. -/
  half : (states.flatMap fun x => x.1.2).length ≤ calls.length / 2

/-- From a new node on, which is counted among others, calls are answered as without an account,
and rarely make a move. -/
theorem calls_rarely_move (others : Stats) (calls : List ChildCall)
    (h : Along Branches.answer Branches.Allows ∅ calls) :
    let start := (Node.new Stem.nil, others.alloc .four)
    ∃ states, run step start calls = .ok states ∧
      run Node.answer start calls = .ok (states.map fun x => (x.1.1, x.2)) ∧
      MovesRarely start calls states := by
  intro start
  let moves (a : Option Tree × List Move) : Nat := a.2.length
  -- The chain begins with the new node, which counts as just moved; its tail are the calls.
  obtain ⟨states, hrun, hchain⟩ :=
    run_linked (fun k k' => k + k' ≤ 1) moves step_paced (paced_new others) h
  have hlinks := List.isChain_iff_getElem.mp hchain
  have hpairs := List.isChain_iff_getElem.mp ((List.isChain_map _).mp hchain.tail)
  have hsum := sum_le_half hchain (Nat.le_refl 1)
  refine ⟨states, hrun, run_forget (fun _ _ _ _ hstep => (of_step hstep).1) hrun,
    run_account hrun, ?_, ?_, ?_⟩
  · intro x hx
    obtain ⟨i, hi, rfl⟩ := List.mem_iff_getElem.mp hx
    have hlink := hlinks i (by simpa using hi)
    simp only [List.getElem_cons_succ, List.getElem_map] at hlink
    exact Nat.le_trans (Nat.le_add_left _ _) hlink
  · intro i j hij hj hmove hmove'
    have hpos := List.length_pos_iff.mpr hmove
    have hpos' := List.length_pos_iff.mpr hmove'
    by_contra hnear
    obtain rfl : j = i + 1 := by omega
    have hpair := hpairs i hj
    simp only [moves] at hpair
    omega
  · rw [List.length_map, length_run hrun] at hsum
    rw [List.length_flatMap]
    simp only [moves] at hsum
    omega

/-- Calls that fill a node up and then lead it to and fro between five children and three. -/
def toAndFro : List ChildCall :=
  let leaf (r : Record) : Tree := .leaf r
  [.add 40 (leaf 4), .add 10 (leaf 1), .add 50 (leaf 5), .add 20 (leaf 2), .add 30 (leaf 3),
    .remove 20, .remove 40, .add 20 (leaf 6), .add 60 (leaf 7), .remove 10, .remove 20]

theorem calls_rarely_move_to_and_fro :
    let start := (Node.new Stem.nil, Stats.alloc {} .four)
    Along Branches.answer Branches.Allows ∅ toAndFro ∧
      ∃ states, run step start toAndFro = .ok states ∧
        run Node.answer start toAndFro = .ok (states.map fun x => (x.1.1, x.2)) ∧
        MovesRarely start toAndFro states := by
  have hcalls : Along Branches.answer Branches.Allows ∅ toAndFro := by
    simp [toAndFro, Along, Branches.Allows, Branches.answer, Finmap.notMem_empty]
  exact ⟨hcalls, calls_rarely_move {} toAndFro hcalls⟩

/-- Once the node is full, every other call makes a move. -/
example : (run step (Node.new Stem.nil, Stats.alloc {} .four) toAndFro).map
    (fun states => states.map fun x => x.1.2.length) =
      .ok [0, 0, 0, 0, 1, 0, 1, 0, 1, 0, 1] := by
  decide

end Moving

end RadixIndex.Dynamic
