/-
# Positions in a node

A position names a place in a node from outside.  The positions of the slots in use come
in the order in which the node lists its slots (`LawfulPositions`), and at each of them is
the byte that leads there (`LawfulBytes`).  That is so in every node, whatever is wrong with
its bytes or its counts.

So a node that is read position by position lists the same children as `Node.children`
does (`Node.steps_children`), and where seeking ends up is said by the list of slots.
-/
import RadixIndex.Proofs.Dynamic.Layout
import RadixIndex.Proofs.Static.Loose
import Mathlib.Data.List.TakeWhile

namespace RadixIndex

/-! ## Positions -/

/-- The positions of the slots in use ascend, and lead to the slots. -/
class LawfulPositions (H : Type) [NodeHeader H] : Prop where
  ordered : ∀ nd : Node H, OrderedBy nd.position nd.slots
  slotAt_position : ∀ (nd : Node H), ∀ s ∈ nd.slots,
    NodeHeader.slotAt nd.header (nd.position s) = some s.2

theorem Keyed.slots_ordered_snd {n : Nat} (key : Fin n → UInt8) (used : Nat) :
    OrderedBy (fun s => s.2.val) (Keyed.slots key used) :=
  List.pairwise_map.mpr (inUse_ascending n used)

/-- Bytes that ascend are positions that ascend. -/
theorem OrderedBy.toNat {α : Type} {l : List (UInt8 × α)} (h : OrderedBy Prod.fst l) :
    OrderedBy (fun s => s.1.toNat) l :=
  h.imp UInt8.lt_iff_toNat_lt.mp

theorem Direct.slotAt_toNat {occupied : Fin 256 → Bool} {b : UInt8} {i : Fin 256}
    (hs : (b, i) ∈ Direct.slots occupied) :
    (if h : b.toNat < 256 then some (⟨b.toNat, h⟩ : Fin 256) else none) = some i := by
  obtain ⟨-, rfl⟩ := Direct.mem_slots.mp hs
  exact dif_pos i.isLt

instance : LawfulPositions Dynamic.Header where
  ordered := by
    rintro ⟨⟨stem, layout⟩, child⟩
    cases layout with
    | four keys used => exact Keyed.slots_ordered_snd keys.get used
    | sixteen keys used => exact Keyed.slots_ordered_snd keys.get used
    | fortyEight table count => exact Dynamic.Layout.tableSlots_ordered.toNat
    | full count => exact Direct.slots_ordered.toNat
  slotAt_position := by
    rintro ⟨⟨stem, layout⟩, child⟩ ⟨b, i⟩ hs
    cases layout with
    | four keys used => exact dif_pos i.isLt
    | sixteen keys used => exact dif_pos i.isLt
    | fortyEight table count =>
        have hentry : table[b.toNat]? = some (some i) := by
          rw [Vector.getElem?_eq_getElem b.toNat_lt]
          exact congrArg some (Dynamic.Layout.mem_tableSlots.mp hs)
        exact congrArg Option.join hentry
    | full count => exact Direct.slotAt_toNat hs

instance : LawfulPositions Static.Header where
  ordered := by
    rintro ⟨header, child⟩
    cases header with
    | dense keys => exact Keyed.slots_ordered_snd keys.get keys.length
    | denseStem stem keys => exact Keyed.slots_ordered_snd keys.get keys.length
    | full count => exact Direct.slots_ordered.toNat
    | fullStem stem count => exact Direct.slots_ordered.toNat
    | loose stem keys => exact Keyed.slots_ordered_snd keys.get keys.length
  slotAt_position := by
    rintro ⟨header, child⟩ ⟨b, i⟩ hs
    cases header with
    | dense keys => exact dif_pos i.isLt
    | denseStem stem keys => exact dif_pos i.isLt
    | full count => exact Direct.slotAt_toNat hs
    | fullStem stem count => exact Direct.slotAt_toNat hs
    | loose stem keys => exact dif_pos i.isLt

/-- At the position of a slot in use is the byte that leads to it. -/
class LawfulBytes (H : Type) [NodeHeader H] : Prop where
  byteAt_position : ∀ (nd : Node H), ∀ s ∈ nd.slots,
    NodeHeader.byteAt nd.header (nd.position s) = some s.1

theorem Keyed.getElem_of_mem_slots {n : Nat} {keys : Vector UInt8 n} {used : Nat} {b : UInt8}
    {i : Fin n} (hs : (b, i) ∈ Keyed.slots keys.get used) : keys[i.val]? = some b := by
  obtain ⟨-, rfl⟩ := Keyed.mem_slots.mp hs
  exact Vector.getElem?_eq_getElem i.isLt

instance : LawfulBytes Dynamic.Header where
  byteAt_position := by
    rintro ⟨⟨stem, layout⟩, child⟩ ⟨b, i⟩ hs
    cases layout with
    | four keys used => exact Keyed.getElem_of_mem_slots hs
    | sixteen keys used => exact Keyed.getElem_of_mem_slots hs
    | fortyEight table count => exact congrArg some UInt8.ofNat_toNat
    | full count => exact congrArg some UInt8.ofNat_toNat

theorem Static.getElem_of_mem_slots {keys : Key} {b : UInt8} {i : Fin keys.length}
    (hs : (b, i) ∈ Keyed.slots keys.get keys.length) : keys[i.val]? = some b := by
  obtain ⟨-, rfl⟩ := Keyed.mem_slots.mp hs
  exact List.getElem?_eq_getElem i.isLt

instance : LawfulBytes Static.Header where
  byteAt_position := by
    rintro ⟨header, child⟩ ⟨b, i⟩ hs
    cases header with
    | dense keys => exact Static.getElem_of_mem_slots hs
    | denseStem stem keys => exact Static.getElem_of_mem_slots hs
    | full count => exact congrArg some UInt8.ofNat_toNat
    | fullStem stem count => exact congrArg some UInt8.ofNat_toNat
    | loose stem keys => exact Static.getElem_of_mem_slots hs

variable {H : Type} [NodeHeader H]

/-! ## The slots from a position on -/

namespace Node

/-- The slots in use whose positions are not before `start`. -/
def slotsFrom (nd : Node H) (start : Nat) : List (UInt8 × Fin (NodeHeader.width nd.header)) :=
  nd.slots.dropWhile fun s => decide (nd.position s < start)

variable {nd : Node H} {start : Nat} {s : UInt8 × Fin (NodeHeader.width nd.header)}
  {pre rest : List (UInt8 × Fin (NodeHeader.width nd.header))}

theorem slotsFrom_zero (nd : Node H) : nd.slotsFrom 0 = nd.slots :=
  List.dropWhile_eq_self_iff.mpr fun _ => by simp

/-- What is left of the slots is the end of their list. -/
theorem exists_slots_eq {p : UInt8 × Fin (NodeHeader.width nd.header) → Bool}
    (h : nd.slots.dropWhile p = s :: rest) : ∃ pre, nd.slots = pre ++ s :: rest :=
  ⟨nd.slots.takeWhile p, by rw [← h, List.takeWhile_append_dropWhile]⟩

theorem positionFrom_eq (nd : Node H) (start : Nat) :
    nd.positionFrom start = (nd.slotsFrom start).head?.map nd.position := by
  rw [positionFrom, List.find?_map, List.find?_eq_head?_dropWhile_not, slotsFrom]
  simp only [Function.comp_apply, ← decide_not, Nat.not_le]

/-- Seeking comes to the first of the slots whose bytes are not smaller, if there is one. -/
theorem seek_cases (nd : Node H) (byte : UInt8) :
    (nd.slots.dropWhile (fun s => decide (s.1 < byte)) = [] ∧ nd.seek byte = none) ∨
      ∃ pre s rest, nd.slots.dropWhile (fun s => decide (s.1 < byte)) = s :: rest ∧
        nd.slots = pre ++ s :: rest ∧ nd.seek byte = some (nd.position s, s.1 == byte) := by
  have hseek : nd.seek byte = (nd.slots.dropWhile fun s => decide (s.1 < byte)).head?.map
      fun s => (nd.position s, s.1 == byte) := by
    rw [seek, List.find?_eq_head?_dropWhile_not]
    simp only [← decide_not, UInt8.not_le]
  rw [hseek]
  cases hdrop : nd.slots.dropWhile fun s => decide (s.1 < byte) with
  | nil => exact Or.inl ⟨rfl, rfl⟩
  | cons s rest =>
      obtain ⟨pre, hslots⟩ := exists_slots_eq hdrop
      exact Or.inr ⟨pre, s, rest, rfl, hslots, rfl⟩

variable [LawfulPositions H]

theorem slotAt_position (h : nd.slots = pre ++ s :: rest) :
    NodeHeader.slotAt nd.header (nd.position s) = some s.2 :=
  LawfulPositions.slotAt_position nd s (h ▸ List.mem_append_right pre List.mem_cons_self)

theorem childAt_position (h : nd.slots = pre ++ s :: rest) :
    nd.childAt (nd.position s) = .ok (nd.child s.2) := by
  rw [childAt, slotAt_position h]

/-- From behind the position of a slot on there are the slots that are listed after it. -/
theorem slotsFrom_succ (h : nd.slots = pre ++ s :: rest) :
    nd.slotsFrom (nd.position s + 1) = rest := by
  have hordered := LawfulPositions.ordered nd
  rw [h, OrderedBy, List.pairwise_append, List.pairwise_cons] at hordered
  obtain ⟨-, ⟨hafter, -⟩, hbefore⟩ := hordered
  have hpre : ∀ x ∈ pre ++ [s], decide (nd.position x < nd.position s + 1) = true := by
    intro x hx
    rw [decide_eq_true_eq, Nat.lt_succ_iff]
    rcases List.mem_append.mp hx with hx | hx
    · exact Nat.le_of_lt (hbefore x hx s List.mem_cons_self)
    · exact Nat.le_of_eq (congrArg nd.position (List.mem_singleton.mp hx))
  rw [slotsFrom, h, List.append_cons, List.dropWhile_append_of_pos hpre,
    List.dropWhile_eq_self_iff]
  intro hlen
  rw [decide_eq_true_eq, Nat.not_lt]
  exact hafter _ (List.getElem_mem hlen)

end Node

/-! ## Reading position by position -/

/-- What is read from a position on, going from each position in use to the next one. -/
inductive Node.Steps (nd : Node H) : Nat → List (UInt8 × Tree H) → Prop
  | done {start : Nat} : nd.positionFrom start = none → Steps nd start []
  | step {start position : Nat} {b : UInt8} {t : Tree H} {rest : List (UInt8 × Tree H)} :
      nd.positionFrom start = some position → nd.byteAt position = .ok b →
      nd.childAt position = .ok t → Steps nd (position + 1) rest →
      Steps nd start ((b, t) :: rest)

namespace Node

variable {nd : Node H} {s : UInt8 × Fin (NodeHeader.width nd.header)}

theorem byteAt_position [LawfulBytes H] (hs : s ∈ nd.slots) :
    nd.byteAt (nd.position s) = .ok s.1 := by
  rw [byteAt, LawfulBytes.byteAt_position nd s hs]

theorem steps_slotsFrom [LawfulPositions H] [LawfulBytes H] (start : Nat) :
    nd.Steps start ((nd.slotsFrom start).map fun s => (s.1, nd.child s.2)) := by
  induction hfrom : nd.slotsFrom start generalizing start with
  | nil => exact .done (by rw [positionFrom_eq, hfrom]; rfl)
  | cons s rest ih =>
      obtain ⟨pre, hslots⟩ := exists_slots_eq hfrom
      have hs : s ∈ nd.slots := hslots ▸ List.mem_append_right pre List.mem_cons_self
      have hposition : nd.positionFrom start = some (nd.position s) := by
        rw [positionFrom_eq, hfrom]
        rfl
      exact .step hposition (byteAt_position hs) (childAt_position hslots)
        (ih _ (slotsFrom_succ hslots))

/-- Read position by position, a node gives its children. -/
theorem steps_children [LawfulPositions H] [LawfulBytes H] (nd : Node H) :
    nd.Steps 0 nd.children := by
  have hsteps := nd.steps_slotsFrom 0
  rw [slotsFrom_zero] at hsteps
  exact hsteps

/-- The position of a slot in use is the first one from there on. -/
theorem positionFrom_position [LawfulPositions H] (hs : s ∈ nd.slots) :
    nd.positionFrom (nd.position s) = some (nd.position s) := by
  obtain ⟨pre, rest, hslots⟩ := List.append_of_mem hs
  have hordered := LawfulPositions.ordered nd
  rw [hslots, OrderedBy, List.pairwise_append] at hordered
  have hpre : ∀ x ∈ pre, decide (nd.position x < nd.position s) = true := fun x hx =>
    decide_eq_true (hordered.2.2 x hx s List.mem_cons_self)
  rw [positionFrom_eq, slotsFrom, hslots, List.dropWhile_append_of_pos hpre,
    List.dropWhile_cons_of_neg (by simp)]
  rfl

/-- What is reached by seeking a byte: the byte and the child there, and whether it is the
byte that was sought. -/
def sought (nd : Node H) (byte : UInt8) : Except Fault (Option (UInt8 × Tree H × Bool)) :=
  match nd.seek byte with
  | none => .ok none
  | some (position, exact) => do
      return some (← nd.byteAt position, ← nd.childAt position, exact)

/-- Seeking reaches the first of the children listed whose byte is not smaller. -/
theorem sought_eq [LawfulPositions H] [LawfulBytes H] (nd : Node H) (byte : UInt8) :
    nd.sought byte = .ok ((nd.children.find? fun e => decide (byte ≤ e.1)).map fun e =>
      (e.1, e.2, e.1 == byte)) := by
  rw [sought, seek, children, List.find?_map]
  simp only [Function.comp_def]
  cases hfind : nd.slots.find? fun s => decide (byte ≤ s.1) with
  | none => rfl
  | some s =>
      have hs := List.mem_of_find?_eq_some hfind
      obtain ⟨pre, post, hslots⟩ := List.append_of_mem hs
      dsimp only [Option.map_some]
      rw [byteAt_position hs, childAt_position hslots]
      rfl

end Node

end RadixIndex
