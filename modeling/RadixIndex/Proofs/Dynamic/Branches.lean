/-
# A node as a map

The children of a dynamic node are a finite map from bytes to trees.  What calls that add
and remove children do to a node, they do to the map (`answer_ok`), whatever layouts the
node goes through; and a node that keeps the map tells of it in every way it can be asked
(`Keeps.shows`): by looking up, by listing, by taking the children out, by going through its
positions, and by seeking.

So any sequence of calls from a new node on is answered as the map answers it
(`calls_keep_map`).  The points of growth and of shrinking leave a range of numbers of
children to each layout:

    four   0 to 4      sixteen   4 to 16      fortyEight   13 to 48      full   38 to 256
-/
import RadixIndex.Proofs.Dynamic.Children
import RadixIndex.Proofs.Positions
import RadixIndex.Proofs.Runs
import Mathlib.Data.Finmap

namespace RadixIndex.Dynamic

/-! ## Calls -/

/-- A finite map from bytes to children. -/
abbrev Branches : Type := Finmap fun _ : UInt8 => Tree

/-- A call that changes the children of a node. -/
inductive ChildCall where
  | add (byte : UInt8) (t : Tree)
  | remove (byte : UInt8)

namespace Branches

/-- What a map answers, and the map after it: removing gives what was there. -/
def answer (m : Branches) : ChildCall → Option Tree × Branches
  | .add b t => (none, m.insert b t)
  | .remove b => (some ((m.lookup b).getD .empty), m.erase b)

/-- What is added is something, under a byte that is not there yet. -/
def Allows (m : Branches) : ChildCall → Prop
  | .add b t => b ∉ m ∧ t ≠ .empty
  | .remove _ => True

/-- The byte `c` is the least one of the map that is not before `b`. -/
structure LeastFrom (m : Branches) (b c : UInt8) : Prop where
  mem : c ∈ m
  le : b ≤ c
  least : ∀ c' ∈ m, b ≤ c' → c ≤ c'

end Branches

/-- The least number of children that calls leave in a node of a size. -/
def Size.fewest : Size → Nat
  | .four => 0
  | .sixteen => 4
  | .fortyEight => 13
  | .full => 38

theorem Size.fewest_larger {size : Size} (h : size ≠ .full) :
    size.larger.fewest ≤ size.capacity := by
  cases size <;> first | exact absurd rfl h | decide

namespace Node

/-- What a node answers, with its counts, and what it is after it. -/
def answer (x : Node × Stats) : ChildCall → Except Fault (Option Tree × Node × Stats)
  | .add b t => do return (none, ← addChild x.1 b t x.2)
  | .remove b => do
      let (t, x) ← removeChild x.1 b x.2
      return (some t, x)

/-! ## What a node tells -/

/-- Seeking `b` comes to the position of the least byte from `b` on, if there is one, and
tells whether that is `b` itself. -/
def SeeksIn (nd : Node) (m : Branches) (b : UInt8) : Prop :=
  match nd.seek b with
  | none => ∀ c ∈ m, c < b
  | some (p, exact) => (exact = true ↔ b ∈ m) ∧ nd.positionFrom p = some p ∧
      ∃ c t, m.LeastFrom b c ∧ m.lookup c = some t ∧ nd.byteAt p = .ok c ∧ nd.childAt p = .ok t

/-- The node tells of the map in every way it can be asked, and its counts are those of one
node of its size. -/
structure Shows (x : Node × Stats) (m : Branches) : Prop where
  count : x.1.count = m.keys.card
  found : ∀ b, x.1.child? b = m.lookup b
  ordered : OrderedBy Prod.fst x.1.children
  mem : ∀ b t, (b, t) ∈ x.1.children ↔ m.lookup b = some t
  taken : takeChildren x.1 = x.1.children
  steps : x.1.Steps 0 x.1.children
  seeks : ∀ b, SeeksIn x.1 m b
  /-- Removing what is not there changes nothing. -/
  remove_absent : ∀ b ∉ m, ∀ s, removeChild x.1 b s = .ok (.empty, x.1, s)
  fewest_le : (size x.1).fewest ≤ x.1.count
  le_capacity : x.1.count ≤ (size x.1).capacity
  ofSize : ∀ size', x.2.ofSize size' = if size' = size x.1 then 1 else 0
  memory : x.2.memory = NodeHeader.footprint x.1.header

/-! ## What calls keep -/

/-- The node is sound and has the children that the map has. -/
structure Keeps (x : Node × Stats) (m : Branches) : Prop where
  sound : x.1.Sound
  mem : ∀ b t, (b, t) ∈ x.1.children ↔ m.lookup b = some t
  fewest_le : (size x.1).fewest ≤ x.1.count
  stats : x.2 = .one (size x.1)

section

variable {n n' : Node} {x : Node × Stats} {m : Branches} {b : UInt8} {t : Tree}

theorem keeps_new : Keeps (new Stem.nil, Stats.alloc {} .four) ∅ := by
  refine ⟨sound_new _, ?_, ?_, ?_⟩
  · intro b t
    rw [children_new, Finmap.lookup_empty]
    exact iff_of_false List.not_mem_nil (Option.some_ne_none t).symm
  · exact Nat.zero_le _
  · rw [new_eq]
    rfl

theorem Keeps.absent (h : Keeps x m) (hb : b ∉ m) (t : Tree) : (b, t) ∉ x.1.children := by
  rw [h.mem, Finmap.lookup_eq_none.mpr hb]
  exact nofun

theorem addChild_fewest (hn : n.Sound) (hb : ∀ t, (b, t) ∉ n.children)
    (hadded : Added n n' b t)
    (hsize : size n' = if isFull n then (size n).larger else size n)
    (hfew : (size n).fewest ≤ n.count) : (size n').fewest ≤ n'.count := by
  rw [hsize, hadded.count_eq hn hb]
  by_cases hfull : isFull n
  · have hcap : (size n).capacity ≤ n.count := of_decide_eq_true hfull
    have hnot : size n ≠ .full := by
      intro h
      have hlt := count_lt_of_absent hn hb
      rw [h] at hcap
      exact Nat.not_lt.mpr hcap hlt
    rw [if_pos hfull]
    exact Nat.le_succ_of_le (Nat.le_trans (Size.fewest_larger hnot) hcap)
  · rw [if_neg hfull]
    exact Nat.le_succ_of_le hfew

/-- Adding a child under a new byte inserts it into the map. -/
theorem addChild_keeps (h : Keeps x m) (hb : b ∉ m) (ht : t ≠ .empty) :
    ∃ x', addChild x.1 b t x.2 = .ok x' ∧ Keeps x' (m.insert b t) := by
  obtain ⟨n', hadd, hadded, -, hsize⟩ := addChild_ok h.sound (h.absent hb) ht 0
  rw [add_zero, ← h.stats] at hadd
  refine ⟨_, hadd, hadded.sound, fun c u => ?_,
    addChild_fewest h.sound (h.absent hb) hadded hsize h.fewest_le, add_zero _⟩
  rw [hadded.mem, h.mem, Prod.mk.injEq]
  by_cases hc : c = b
  · rw [hc, Finmap.lookup_insert, Finmap.lookup_eq_none.mpr hb]
    simp [eq_comm]
  · rw [Finmap.lookup_insert_of_ne m hc, or_iff_right fun he => hc he.1]

/-- The points of shrinking leave enough children for the smaller size. -/
theorem fewest_of_shrinksAt {size : Size} {k : Nat} (h : size.fewest ≤ k + 1) :
    (if shrinksAt size k then size.smaller else size).fewest ≤ k := by
  by_cases hshrinks : shrinksAt size k
  · rw [if_pos hshrinks]
    unfold shrinksAt at hshrinks
    split at hshrinks
    · decide
    · decide
    · decide
    · exact absurd hshrinks Bool.false_ne_true
  · rw [if_neg hshrinks]
    cases size with
    | four => exact Nat.zero_le _
    | sixteen | fortyEight | full =>
        exact Nat.lt_of_le_of_ne (Nat.le_of_succ_le_succ h) fun he => hshrinks (he ▸ rfl)

/-- Removing a child that is there erases it from the map. -/
theorem removeChild_keeps (h : Keeps x m) (hb : m.lookup b = some t) :
    ∃ x', removeChild x.1 b x.2 = .ok (t, x') ∧ Keeps x' (m.erase b) := by
  have hmem := (h.mem b t).mpr hb
  obtain ⟨n', hremove, hremoved, hsize⟩ := removeChild_answers h.sound hmem 0
  rw [add_zero, ← h.stats] at hremove
  refine ⟨_, hremove, hremoved.sound, fun c u => ?_, ?_, add_zero _⟩
  · rw [hremoved.mem, h.mem]
    by_cases hc : c = b
    · rw [hc, Finmap.lookup_erase]
      exact ⟨fun hne => absurd rfl hne.2, nofun⟩
    · rw [Finmap.lookup_erase_ne hc, and_iff_left hc]
  · show (size n').fewest ≤ n'.count
    rw [hsize]
    exact fewest_of_shrinksAt (hremoved.count_eq h.sound hmem ▸ h.fewest_le)

/-- A byte that leads nowhere takes nothing out. -/
theorem extract_absent (hn : n.Sound) (hb : ∀ t, (b, t) ∉ n.children) :
    extract b n = none ∨ extract b n = some (.empty, n) := by
  have hfind : n.find b = none := by
    cases hf : n.find b with
    | none => rfl
    | some i => exact absurd (hn.mem_children_of_find hf) (hb _)
  obtain ⟨⟨stem, layout⟩, child⟩ := n
  cases layout with
  | four keys used =>
      have hfind : Keyed.find keys.get used b = none := hfind
      exact Or.inl (by rw [extract, hfind, Option.map_none])
  | sixteen keys used =>
      have hfind : Keyed.find keys.get used b = none := hfind
      exact Or.inl (by rw [extract, hfind, Option.map_none])
  | fortyEight table count =>
      have hget : table.get b.toFin = none := hfind
      exact Or.inl (by rw [extract, hget, Option.map_none])
  | full count =>
      have hempty : child b.toFin = .empty :=
        Classical.byContradiction fun hne => hb _ (mem_children_full.mpr ⟨hne, rfl⟩)
      have hself : setCell child b.toFin .empty = child := hempty ▸ setCell_self child b.toFin
      exact Or.inr (by rw [extract, ofFull, RadixIndex.Node.build_eq, hempty, hself])

theorem removeChild_absent (hn : n.Sound) (hb : ∀ t, (b, t) ∉ n.children) (s : Stats) :
    removeChild n b s = .ok (.empty, n, s) := by
  rw [removeChild]
  rcases extract_absent hn hb with h | h <;> rw [h] <;> rfl

/-- One call is answered as by the map, which the node goes on keeping. -/
theorem answer_ok (x : Node × Stats) (m : Branches) (call : ChildCall) (h : Keeps x m)
    (hallowed : m.Allows call) :
    ∃ x', answer x call = .ok ((m.answer call).1, x') ∧ Keeps x' (m.answer call).2 := by
  cases call with
  | add b t =>
      obtain ⟨x', hadd, hkeeps⟩ := addChild_keeps h hallowed.1 hallowed.2
      exact ⟨x', by rw [answer, hadd]; rfl, hkeeps⟩
  | remove b =>
      cases hb : m.lookup b with
      | some t =>
          obtain ⟨x', hremove, hkeeps⟩ := removeChild_keeps h hb
          exact ⟨x', by rw [answer, hremove, Branches.answer, hb]; rfl, hkeeps⟩
      | none =>
          have hnot := Finmap.lookup_eq_none.mp hb
          refine ⟨x, ?_, ?_⟩
          · rw [answer, removeChild_absent h.sound (h.absent hnot), Branches.answer, hb]
            rfl
          · have herase : m.erase b = m := by
              refine Finmap.ext_lookup fun c => ?_
              by_cases hc : c = b
              · rw [hc, Finmap.lookup_erase, hb]
              · rw [Finmap.lookup_erase_ne hc]
            show Keeps x (m.erase b)
            rw [herase]
            exact h

/-! ## Telling of the map -/

theorem Keeps.mem_iff (h : Keeps x m) : b ∈ m ↔ ∃ t, (b, t) ∈ x.1.children := by
  rw [Finmap.mem_iff]
  exact exists_congr fun t => (h.mem b t).symm

theorem Keeps.count_eq (h : Keeps x m) : x.1.count = m.keys.card := by
  have hnodup : (x.1.children.map Prod.fst).Nodup := by
    refine List.pairwise_map.mpr (h.sound.children_ordered.imp ?_)
    intro e e' hlt he
    exact UInt8.lt_irrefl _ (he ▸ hlt)
  have hkeys : m.keys = (x.1.children.map Prod.fst).toFinset := by
    ext b
    rw [Finmap.mem_keys, h.mem_iff, List.mem_toFinset, List.mem_map]
    exact ⟨fun ⟨t, ht⟩ => ⟨(b, t), ht, rfl⟩, fun ⟨e, he, hb⟩ => ⟨e.2, hb ▸ he⟩⟩
  rw [hkeys, List.toFinset_card_of_nodup hnodup, List.length_map, h.sound.count_eq_length]

theorem Keeps.child?_eq (h : Keeps x m) (b : UInt8) : x.1.child? b = m.lookup b := by
  rw [RadixIndex.Node.child?]
  cases hfind : x.1.find b with
  | some i => exact ((h.mem b _).mp (h.sound.mem_children_of_find hfind)).symm
  | none =>
      have hb : b ∉ m := by
        intro hb
        obtain ⟨t, ht⟩ := h.mem_iff.mp hb
        exact h.sound.not_mem_of_find hfind t ht
      exact (Finmap.lookup_eq_none.mpr hb).symm

theorem Keeps.seeksIn (h : Keeps x m) (b : UInt8) : SeeksIn x.1 m b := by
  obtain ⟨pre, hsplit, hpre, hrest⟩ := exists_dropWhile h.sound.ordered b
  have hslot : ∀ c ∈ m, ∃ i, (c, i) ∈ x.1.slots := by
    intro c hc
    obtain ⟨t, ht⟩ := h.mem_iff.mp hc
    obtain ⟨i, hi, -⟩ := RadixIndex.Node.mem_children.mp ht
    exact ⟨i, hi⟩
  rw [SeeksIn]
  rcases x.1.seek_cases b with ⟨hdrop, hseek⟩ | ⟨pre', s, rest, hdrop, hslots, hseek⟩
  · rw [hseek]
    intro c hc
    obtain ⟨i, hi⟩ := hslot c hc
    rw [hdrop, List.append_nil] at hsplit
    exact hpre (c, i) (hsplit ▸ hi)
  · rw [hseek]
    obtain ⟨hle, hlater⟩ := hrest s rest hdrop
    have hs : s ∈ x.1.slots := hslots ▸ List.mem_append_right pre' List.mem_cons_self
    have hchild : (s.1, x.1.child s.2) ∈ x.1.children :=
      RadixIndex.Node.mem_children.mpr ⟨s.2, hs, rfl⟩
    have hmem : s.1 ∈ m := h.mem_iff.mpr ⟨_, hchild⟩
    have hleast : ∀ c ∈ m, b ≤ c → s.1 ≤ c := by
      intro c hc hbc
      obtain ⟨i, hi⟩ := hslot c hc
      rw [hsplit, hdrop] at hi
      rcases List.mem_append.mp hi with hi | hi
      · exact absurd (hpre (c, i) hi) (UInt8.not_lt.mpr hbc)
      · rcases List.mem_cons.mp hi with he | hi
        · exact UInt8.le_of_eq (congrArg Prod.fst he).symm
        · exact UInt8.le_of_lt (hlater (c, i) hi)
    refine ⟨?_, RadixIndex.Node.positionFrom_position hs, s.1, x.1.child s.2,
      ⟨hmem, UInt8.not_lt.mp hle, hleast⟩, (h.mem _ _).mp hchild,
      RadixIndex.Node.byteAt_position hs, RadixIndex.Node.childAt_position hslots⟩
    rw [beq_iff_eq]
    constructor
    · rintro rfl
      exact hmem
    · intro hb
      exact UInt8.le_antisymm (hleast b hb (UInt8.le_refl b)) (UInt8.not_lt.mp hle)

/-- A node that keeps a map shows it. -/
theorem Keeps.shows (h : Keeps x m) : Shows x m where
  count := h.count_eq
  found := h.child?_eq
  ordered := h.sound.children_ordered
  mem := h.mem
  taken := takeChildren_eq h.sound
  steps := x.1.steps_children
  seeks := h.seeksIn
  remove_absent _ hb := removeChild_absent h.sound (h.absent hb)
  fewest_le := h.fewest_le
  le_capacity := count_le_capacity h.sound
  ofSize size' := by rw [h.stats, Stats.ofSize_one]
  memory := by rw [h.stats, Stats.memory_one]; rfl

end

/-! ## Any calls -/

/-- From a new node on, calls never stop with a fault, are answered as by the map they
describe, and leave a node that shows it. -/
theorem calls_keep_map (calls : List ChildCall)
    (h : Along Branches.answer Branches.Allows ∅ calls) :
    Shows (new Stem.nil, Stats.alloc {} .four) ∅ ∧
      ∃ states, run answer (new Stem.nil, Stats.alloc {} .four) calls = .ok states ∧
        List.Forall₂ (fun x y => x.1 = y.1 ∧ Shows x.2 y.2) states
          (history Branches.answer ∅ calls) := by
  obtain ⟨states, hrun, hall⟩ := run_simulates_along answer_ok keeps_new h
  exact ⟨keeps_new.shows, states, hrun, hall.imp fun _ _ hxy => ⟨hxy.1, hxy.2.shows⟩⟩

/-- A node that grows at its fifth child and shrinks when three are left, asked for a byte
that is gone in between. -/
theorem calls_keep_map_of_growth :
    let leaf (r : Record) : Tree := .leaf r
    let calls : List ChildCall := [.add 40 (leaf 4), .add 10 (leaf 1), .add 50 (leaf 5),
      .add 20 (leaf 2), .add 30 (leaf 3), .remove 20, .remove 20, .remove 40, .add 20 (leaf 6)]
    Along Branches.answer Branches.Allows ∅ calls ∧
      Shows (new Stem.nil, Stats.alloc {} .four) ∅ ∧
      ∃ states, run answer (new Stem.nil, Stats.alloc {} .four) calls = .ok states ∧
        List.Forall₂ (fun x y => x.1 = y.1 ∧ Shows x.2 y.2) states
          (history Branches.answer ∅ calls) := by
  intro leaf calls
  have hcalls : Along Branches.answer Branches.Allows ∅ calls := by
    simp [calls, leaf, Along, Branches.Allows, Branches.answer, Finmap.notMem_empty]
  exact ⟨hcalls, calls_keep_map calls hcalls⟩

end Node

end RadixIndex.Dynamic
