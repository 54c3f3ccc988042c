/-
# Shapes are interchangeable

Packing loses nothing, and the shape that comes of it cannot be told from outside.  The node
that a policy packs can be taken apart into the stem and the children it was packed from, in
whatever way its shape is taken apart (`Loose.Makes.unpack_eq`).  What can be seen of it is a
`View`: its stem, how many children it has, which child a byte leads to, the children one
after the other, whether it has leaves among them, its smallest leaf, how keys compare with
its stem, and what is reached by seeking.  The view is that of the loose form
(`Loose.Makes.view_eq`), so it is the same under all policies (`Loose.packs_interchangeable`).

Positions in the node are not part of the view: they are numbers in one shape and bytes in
the other.

In a node with key bytes a byte is found by halving, and the place where halving ends parts
the smaller bytes from the others (`Key.bisect_spec`).
-/
import RadixIndex.Proofs.Answers
import RadixIndex.Proofs.Positions
import RadixIndex.Static.Shapes
import RadixIndex.Tree.Stem

namespace RadixIndex

/-! ## Searching by halving -/

/-- The bytes before the place are smaller, those from there on are not. -/
structure Key.Parts (keys : Key) (byte : UInt8) (place : Nat) : Prop where
  before : ∀ i (h : i < keys.length), i < place → keys[i] < byte
  after : ∀ i (h : i < keys.length), place ≤ i → byte ≤ keys[i]

/-- Between `low` and `high` the search has still to find out; it ends where the bytes part,
and knows whether the byte is there. -/
theorem Key.bisect_spec {keys : Key} (hasc : keys.Pairwise (· < ·)) (byte : UInt8)
    (low high : Nat) (hhigh : high ≤ keys.length)
    (hbefore : ∀ i (h : i < keys.length), i < low → keys[i] < byte)
    (hafter : ∀ i (h : i < keys.length), high ≤ i → byte < keys[i]) :
    keys.Parts byte (keys.bisect byte low high).1 ∧
      ((keys.bisect byte low high).2 = true ↔
        keys[(keys.bisect byte low high).1]? = some byte) := by
  have hless := List.pairwise_iff_getElem.mp hasc
  fun_induction Key.bisect keys byte low high with
  | case1 low high hlt middle hnone =>
      have hmiddle : middle < keys.length := by omega
      rw [List.getElem?_eq_getElem hmiddle] at hnone
      exact absurd hnone nofun
  | case2 low high hlt middle hget =>
      obtain ⟨hmiddle, hbyte⟩ := List.getElem?_eq_some_iff.mp hget
      refine ⟨⟨?_, ?_⟩, fun _ => hget, fun _ => rfl⟩
      · intro i h hi
        exact hbyte ▸ hless i middle h hmiddle hi
      · intro i h hi
        rcases Nat.lt_or_eq_of_le hi with hi | rfl
        · exact UInt8.le_of_lt (hbyte ▸ hless middle i hmiddle h hi)
        · exact UInt8.le_of_eq hbyte.symm
  | case3 low high hlt middle b hget hne hsmaller ih =>
      obtain ⟨hmiddle, hbyte⟩ := List.getElem?_eq_some_iff.mp hget
      refine ih hhigh ?_ hafter
      intro i h hi
      rcases Nat.lt_or_eq_of_le (Nat.le_of_lt_succ hi) with hi | rfl
      · exact UInt8.lt_trans (hless i middle h hmiddle hi) (hbyte ▸ hsmaller)
      · exact hbyte ▸ hsmaller
  | case4 low high hlt middle b hget hne hlarger ih =>
      obtain ⟨hmiddle, hbyte⟩ := List.getElem?_eq_some_iff.mp hget
      have hbyteLt : byte < keys[middle] :=
        UInt8.lt_of_le_of_ne (hbyte ▸ UInt8.not_lt.mp hlarger) fun he => hne (he ▸ hbyte).symm
      refine ih (by omega) hbefore ?_
      intro i h hi
      rcases Nat.lt_or_eq_of_le hi with hi | rfl
      · exact UInt8.lt_trans hbyteLt (hless middle i hmiddle h hi)
      · exact hbyteLt
  | case5 low high hle =>
      refine ⟨⟨hbefore, fun i h hi => UInt8.le_of_lt (hafter i h (by omega))⟩, nofun, ?_⟩
      intro hget
      obtain ⟨hlow, hbyte⟩ := List.getElem?_eq_some_iff.mp hget
      exact absurd (hbyte ▸ hafter low hlow (by omega)) (UInt8.lt_irrefl _)

namespace Static

section Halving

variable {keys : Key} (hord : OrderedBy Prod.fst (Keyed.slots keys.get keys.length))

include hord

theorem bisect_all (b : UInt8) : keys.Parts b (keys.bisect b 0 keys.length).1 ∧
    ((keys.bisect b 0 keys.length).2 = true ↔
      keys[(keys.bisect b 0 keys.length).1]? = some b) := by
  have hasc : keys.Pairwise (· < ·) := by
    refine List.pairwise_iff_getElem.mpr ?_
    intro i j hi hj hij
    exact Keyed.slots_ordered.mp hord ⟨i, hi⟩ ⟨j, hj⟩ hij hj
  exact Key.bisect_spec hasc b 0 keys.length (Nat.le_refl _)
    (fun _ _ h => absurd h (Nat.not_lt_zero _)) fun _ h hle => absurd h (Nat.not_lt.mpr hle)

/-- Halving finds the byte where going through the key bytes finds it. -/
theorem find_eq_bisect (b : UInt8) : Keyed.find keys.get keys.length b =
    if (keys.bisect b 0 keys.length).2 then
      if h : (keys.bisect b 0 keys.length).1 < keys.length then some ⟨_, h⟩ else none
    else none := by
  have hasc := Keyed.slots_ordered.mp hord
  obtain ⟨hparts, hfound⟩ := bisect_all hord b
  by_cases hthere : (keys.bisect b 0 keys.length).2 = true
  · obtain ⟨hplace, hbyte⟩ := List.getElem?_eq_some_iff.mp (hfound.mp hthere)
    rw [if_pos hthere, dif_pos hplace, Keyed.find_eq_some hasc, Keyed.mem_slots]
    exact ⟨hplace, hbyte⟩
  · rw [if_neg hthere]
    cases hfind : Keyed.find keys.get keys.length b with
    | none => rfl
    | some i =>
        obtain ⟨hi, hbyte⟩ := Keyed.mem_slots.mp ((Keyed.find_eq_some hasc).mp hfind)
        have hbyte : keys[i.val] = b := hbyte
        -- The byte is neither before the place nor after it.
        have hle : (keys.bisect b 0 keys.length).1 ≤ i.val :=
          Nat.le_of_not_lt fun hlt =>
            absurd (hbyte ▸ hparts.before i hi hlt) (UInt8.lt_irrefl _)
        have hge : i.val ≤ (keys.bisect b 0 keys.length).1 := by
          refine Nat.le_of_not_lt fun hlt => ?_
          have hplace : (keys.bisect b 0 keys.length).1 < keys.length := Nat.lt_trans hlt hi
          have hless : keys[(keys.bisect b 0 keys.length).1] < keys[i.val] :=
            hasc ⟨_, hplace⟩ i hlt hi
          exact absurd (hparts.after _ hplace (Nat.le_refl _))
            (UInt8.not_le.mpr (hbyte ▸ hless))
        have hplace : (keys.bisect b 0 keys.length).1 = i.val := Nat.le_antisymm hle hge
        refine absurd (hfound.mpr ?_) hthere
        rw [hplace, List.getElem?_eq_getElem hi, hbyte]

/-- The place where halving ends is that of the first key byte that is not smaller. -/
theorem find?_eq_bisect (b : UInt8) :
    ((Keyed.slots keys.get keys.length).find? fun s => decide (b ≤ s.1)).map
        (fun s => (s.2.val, s.1 == b)) =
      if (keys.bisect b 0 keys.length).1 < keys.length then
        some (keys.bisect b 0 keys.length)
      else none := by
  obtain ⟨hparts, hfound⟩ := bisect_all hord b
  by_cases hplace : (keys.bisect b 0 keys.length).1 < keys.length
  · have hmem : (keys[(keys.bisect b 0 keys.length).1], ⟨_, hplace⟩) ∈
        Keyed.slots keys.get keys.length := Keyed.mem_slots.mpr ⟨hplace, rfl⟩
    have hexact : (keys[(keys.bisect b 0 keys.length).1] == b) =
        (keys.bisect b 0 keys.length).2 := by
      rw [Bool.eq_iff_iff, beq_iff_eq, hfound, List.getElem?_eq_getElem hplace,
        Option.some.injEq]
    rw [if_pos hplace, find?_eq_some_of_least hord hmem
      (hparts.after _ hplace (Nat.le_refl _)), Option.map_some, hexact]
    rintro ⟨c, i⟩ hi hle
    obtain ⟨hlt, rfl⟩ := Keyed.mem_slots.mp hi
    have hnot : (keys.bisect b 0 keys.length).1 ≤ i.val :=
      Nat.le_of_not_lt fun h => absurd hle (UInt8.not_le.mpr (hparts.before i hlt h))
    rcases Nat.lt_or_eq_of_le hnot with h | h
    · exact UInt8.le_of_lt (Keyed.slots_ordered.mp hord ⟨_, hplace⟩ i h hlt)
    · exact UInt8.le_of_eq (by simp only [h]; rfl)
  · have hnone : (Keyed.slots keys.get keys.length).find? (fun s => decide (b ≤ s.1)) = none := by
      refine List.find?_eq_none.mpr ?_
      rintro ⟨c, i⟩ hi
      obtain ⟨hlt, rfl⟩ := Keyed.mem_slots.mp hi
      have hbefore := hparts.before i hlt (Nat.lt_of_lt_of_le hlt (Nat.not_lt.mp hplace))
      simpa using hbefore
    rw [if_neg hplace, hnone, Option.map_none]

end Halving

/-! ## Searching in nodes -/

namespace Node

theorem search_keyed {keys : Key} (hord : OrderedBy Prod.fst (Keyed.slots keys.get keys.length))
    (child : Fin keys.length → Tree) (b : UInt8) :
    (if (keys.bisect b 0 keys.length).2 then
        (if h : (keys.bisect b 0 keys.length).1 < keys.length then
          some (⟨_, h⟩ : Fin keys.length) else none).map child
      else none) = (Keyed.find keys.get keys.length b).map child := by
  rw [find_eq_bisect hord b]
  split <;> rfl

theorem search_full (child : Fin 256 → Tree) (b : UInt8) :
    ((if h : b.toNat < 256 then some (⟨b.toNat, h⟩ : Fin 256) else none).map child).filter
        (fun t => !t.isEmpty) =
      (Direct.find (fun i => !(child i).isEmpty) b).map child := by
  rw [dif_pos b.toNat_lt, Direct.find, Option.map_some]
  show (some (child b.toFin)).filter _ = _
  by_cases hchild : (!(child b.toFin).isEmpty) = true
  · rw [if_pos hchild]
    exact Option.filter_some_pos hchild
  · rw [if_neg hchild]
    exact Option.filter_some_neg (Bool.not_eq_true _ ▸ hchild)

/-- Whatever its shape, a sound node finds the child that it should. -/
theorem search_eq {n : Node} (hn : n.Sound) (b : UInt8) : search n b = n.child? b := by
  obtain ⟨header, child⟩ := n
  have hord := hn.ordered
  cases header with
  | dense keys => exact search_keyed hord child b
  | denseStem stem keys => exact search_keyed hord child b
  | loose stem keys => exact search_keyed hord child b
  | full count => exact search_full child b
  | fullStem stem count => exact search_full child b

/-- From the byte on, the positions of a node with a slot for every byte are bytes. -/
theorem searchFrom_byByte {n : Node} (h : NodeHeader.byByte n.header = true) (b : UInt8) :
    (n.positionFrom b.toNat).map (fun p => (p, p == b.toNat)) = n.seek b := by
  have hposition : ∀ s, n.position s = s.1.toNat := fun s => if_pos h
  rw [RadixIndex.Node.positionFrom, RadixIndex.Node.seek, List.find?_map, Option.map_map]
  simp only [Function.comp_def, hposition, ← UInt8.le_iff_toNat_le]
  congr 1
  funext s
  rw [Prod.mk.injEq, Bool.eq_iff_iff, beq_iff_eq, beq_iff_eq]
  exact ⟨rfl, UInt8.toNat_inj⟩

/-- Whatever its shape, a sound node seeks as it should. -/
theorem searchFrom_eq {n : Node} (hn : n.Sound) (b : UInt8) : searchFrom n b = n.seek b := by
  obtain ⟨header, child⟩ := n
  have hord := hn.ordered
  cases header with
  | dense keys => exact (find?_eq_bisect hord b).symm
  | denseStem stem keys => exact (find?_eq_bisect hord b).symm
  | loose stem keys => exact (find?_eq_bisect hord b).symm
  | full count => exact searchFrom_byByte rfl b
  | fullStem stem count => exact searchFrom_byByte rfl b

end Node

/-! ## Taking apart -/

namespace Loose

variable {l : Loose} {n : Node} {p : ShapePolicy}

theorem push_ok (stem : Key) {entries : List (UInt8 × Tree)} {e : UInt8 × Tree}
    (h : ∀ e' ∈ entries, e'.1 < e.1) :
    push ⟨stem, entries⟩ e.1 e.2 = .ok ⟨stem, entries ++ [e]⟩ := by
  refine if_pos ?_
  cases hlast : (Loose.mk stem entries).keys.getLast? with
  | none => rfl
  | some last =>
      obtain ⟨e', he', rfl⟩ := List.mem_map.mp (List.mem_of_getLast? hlast)
      exact decide_eq_true (h e' he')

/-- Putting children one after the other never fails when their bytes ascend. -/
theorem foldlM_push {stem : Key} {entries pre : List (UInt8 × Tree)}
    (h : OrderedBy Prod.fst (pre ++ entries)) :
    entries.foldlM (fun l e => push l e.1 e.2) ⟨stem, pre⟩ = .ok ⟨stem, pre ++ entries⟩ := by
  induction entries generalizing pre with
  | nil => rw [List.append_nil]; rfl
  | cons e entries ih =>
      have hpre := (List.pairwise_append.mp h).2.2
      have hpush := push_ok stem fun e' he' => hpre e' he' e List.mem_cons_self
      rw [List.foldlM_cons, hpush, ok_bind, ih (List.append_cons pre e entries ▸ h),
        List.append_assoc]
      rfl

/-- A sound node can be taken apart, whatever its shape. -/
theorem unpack_eq (hn : n.Sound) : unpack n = .ok (ofNode n) := by
  rw [unpack]
  split
  · exact foldlM_push hn.children_ordered
  · rfl

theorem Makes.unpack_eq (h : l.Makes n) : unpack n = .ok l := by
  rw [Loose.unpack_eq h.sound]
  obtain ⟨stem, entries⟩ := l
  rw [ofNode, h.children_eq]
  exact congrArg (fun stem => Except.ok (Loose.mk stem entries)) h.stem_eq

end Loose

/-! ## Views -/

/-- What can be seen of a node without telling its shape. -/
structure View where
  stem : Key
  count : Nat
  /-- The child that a byte leads to. -/
  found : UInt8 → Option Tree
  /-- The children, one after the other. -/
  children : List (UInt8 × Tree)
  isInner : Bool
  least : Option Record
  /-- How the bytes of a key from an offset on compare with the stem. -/
  compared : Loader → Key → Nat → Except Fault Ordering
  /-- The byte and the child that are reached by seeking, and whether it is the byte that was
  sought. -/
  sought : UInt8 → Except Fault (Option (UInt8 × Tree × Bool))

/-- The view of a node. -/
def Node.view (n : Node) : View where
  stem := n.stemBytes
  count := n.count
  found := search n
  children := n.children
  isInner := n.isInner
  least := n.toTree.least?
  compared := n.compareStem
  sought byte :=
    match searchFrom n byte with
    | none => .ok none
    | some (position, exact) => do
        return some (← n.byteAt position, ← n.childAt position, exact)

/-- The view of a node in loose form. -/
def Loose.view (l : Loose) : View where
  stem := l.stem
  count := l.entries.length
  found b := l.entries.lookup b
  children := l.entries
  isInner := l.isInner
  least := l.entries.head?.bind fun e => e.2.least?
  compared _ key depth := do
    return compare (← Key.slice key depth (depth + l.stem.length)) l.stem
  sought byte := .ok <| (l.entries.find? fun e => decide (byte ≤ e.1)).map fun e =>
    (e.1, e.2, e.1 == byte)

/-- The whole of the stem is kept, so no leaf is asked for it. -/
theorem Node.compareStem_eq (n : Node) (L : Loader) (key : Key) (depth : Nat) :
    n.compareStem L key depth = do
      return compare (← Key.slice key depth (depth + n.stemBytes.length)) n.stemBytes := by
  have hnone : n.witness? = none := if_pos (Nat.le_refl _)
  rw [RadixIndex.Node.compareStem, hnone]
  cases Key.slice key depth (depth + n.stemBytes.length) with
  | error fault => rfl
  | ok part =>
      rw [ok_bind, ok_bind]
      exact ite_self _

namespace Loose

variable {l : Loose} {n : Node}

theorem Makes.found_eq (h : l.Makes n) (b : UInt8) : n.child? b = l.entries.lookup b := by
  have hord : OrderedBy Prod.fst l.entries := h.children_eq ▸ h.sound.children_ordered
  rw [RadixIndex.Node.child?]
  cases hfind : n.find b with
  | some i =>
      have hmem := h.sound.mem_children_of_find hfind
      rw [h.children_eq] at hmem
      exact (hord.lookup_eq_some.mpr hmem).symm
  | none =>
      cases hlookup : l.entries.lookup b with
      | none => rfl
      | some t =>
          have hmem := hord.lookup_eq_some.mp hlookup
          rw [← h.children_eq] at hmem
          exact absurd hmem (h.sound.not_mem_of_find hfind t)

/-- The view of a node that is made of a loose form is the view of the loose form. -/
theorem Makes.view_eq (h : l.Makes n) : Node.view n = l.view := by
  have hstem : n.stemBytes = l.stem := h.stem_eq
  have hfound : Node.search n = l.view.found :=
    funext fun b => (Node.search_eq h.sound b).trans (h.found_eq b)
  have hcompared : n.compareStem = l.view.compared := by
    funext L key depth
    rw [Node.compareStem_eq, hstem]
    rfl
  have hsought : (Node.view n).sought = l.view.sought := by
    funext b
    show (match Node.searchFrom n b with
      | none => Except.ok none
      | some (position, exact) => do
          return some (← n.byteAt position, ← n.childAt position, exact)) = _
    rw [Node.searchFrom_eq h.sound]
    refine (n.sought_eq b).trans ?_
    rw [h.children_eq]
    rfl
  have hleast : n.toTree.least? = l.entries.head?.bind fun e => e.2.least? := by
    rw [← h.children_eq]
    exact RadixIndex.Tree.least?_node n.header n.child
  have hinner : n.isInner = l.isInner := by
    rw [RadixIndex.Node.isInner, h.children_eq, isInner]
  have hcount : n.count = l.entries.length := h.children_eq ▸ h.sound.count_eq_length
  rw [Node.view, view, hstem, hcount, hfound, h.children_eq, hinner, hleast, hcompared]
  exact congrArg (View.mk _ _ _ _ _ _ _) hsought

/-- In range, comparing a key with the stem answers. -/
theorem Makes.compareStem_eq (h : l.Makes n) (L : Loader) {key : Key} {depth : Nat}
    (hlen : depth + l.stem.length ≤ key.length) : n.compareStem L key depth =
      .ok (compare ((key.drop depth).take l.stem.length) l.stem) := by
  have hstem : n.stemBytes = l.stem := h.stem_eq
  rw [Node.compareStem_eq, hstem, Key.slice, if_pos ⟨Nat.le_add_right _ _, hlen⟩, ok_bind,
    List.drop_take, Nat.add_sub_cancel_left]
  rfl

/-- Seen from outside, a list of children is the same node under any two policies and in
loose shape, and nothing of it is lost. -/
theorem packs_interchangeable (hl : l.Proper) (p q : ShapePolicy) :
    (unpack (l.pack p) = .ok l ∧ unpack l.toNode = .ok l) ∧
      (Node.view (l.pack p) = l.view ∧ Node.view (l.pack p) = Node.view (l.pack q) ∧
        Node.view (l.pack p) = Node.view l.toNode) ∧
      ((l.pack p).Steps 0 l.entries ∧ l.toNode.Steps 0 l.entries) ∧
      ∀ L key depth, depth + l.stem.length ≤ key.length →
        (l.pack p).compareStem L key depth =
          .ok (compare ((key.drop depth).take l.stem.length) l.stem) := by
  have hp := l.pack_makes hl p
  have hq := l.pack_makes hl q
  have hloose := l.toNode_makes hl
  refine ⟨⟨hp.unpack_eq, hloose.unpack_eq⟩, ⟨hp.view_eq, hp.view_eq.trans hq.view_eq.symm,
    hp.view_eq.trans hloose.view_eq.symm⟩, ⟨?_, ?_⟩, fun L _ _ => hp.compareStem_eq L⟩
  · exact hp.children_eq ▸ (l.pack p).steps_children
  · exact hloose.children_eq ▸ l.toNode.steps_children

/-- Two children after a stem, dense under one policy and full under another. -/
theorem packs_interchangeable_of_two :
    let l : Loose := ⟨[7], [(3, .leaf 1), (200, .leaf 2)]⟩
    let p : ShapePolicy := ⟨2⟩
    let q : ShapePolicy := ⟨1⟩
    l.Proper ∧ (l.pack p).header.isFull = false ∧ (l.pack q).header.isFull = true ∧
      (unpack (l.pack p) = .ok l ∧ unpack l.toNode = .ok l) ∧
      (Node.view (l.pack p) = l.view ∧ Node.view (l.pack p) = Node.view (l.pack q) ∧
        Node.view (l.pack p) = Node.view l.toNode) ∧
      ((l.pack p).Steps 0 l.entries ∧ l.toNode.Steps 0 l.entries) ∧
      ∀ L key depth, depth + l.stem.length ≤ key.length →
        (l.pack p).compareStem L key depth =
          .ok (compare ((key.drop depth).take l.stem.length) l.stem) := by
  intro l p q
  have hl : l.Proper := ⟨by simp [l], by simp [l]⟩
  exact ⟨hl, rfl, rfl, packs_interchangeable hl p q⟩

end Loose

end Static

end RadixIndex
