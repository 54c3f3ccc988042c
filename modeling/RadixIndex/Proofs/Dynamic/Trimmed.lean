/-
# What no byte leads to

A dynamic node may have something in a slot that it does not list: a leaf that was left
behind after the slots in use, or one that the table no longer leads to.  Nothing that goes
through a tree comes there.  `Tree.trimmed` empties such slots at every node, and whatever
looks at a tree finds the same in what is left: its records, a key, with or without every
byte checked, and a walk from the first record on.

So a tree of which only the listed slots are known can be exchanged for one in which every
slot is accounted for, which is what `Node.Sound` asks.
-/
import RadixIndex.Proofs.Guarded
import RadixIndex.Proofs.Walk

namespace RadixIndex.Dynamic

/-- The tree with nothing in the slots that no byte leads to. -/
def Tree.trimmed : Tree → Tree
  | .empty => .empty
  | .leaf r => .leaf r
  | .node h c => .node h fun i =>
      if i ∈ (NodeHeader.slots h fun i => !(c i).isEmpty).map Prod.snd then trimmed (c i)
      else .empty

/-- What is left in the slots of a node: what bytes lead to, trimmed. -/
def Node.trimmedCells (h : Header) (c : Fin (NodeHeader.width h) → Tree)
    (i : Fin (NodeHeader.width h)) : Tree :=
  if i ∈ (RadixIndex.Node.mk h c).slots.map Prod.snd then Tree.trimmed (c i) else .empty

variable {L : Loader} {key : Key}

/-! ## Nodes -/

namespace Layout

/-- A layout lists and finds the same slots if nothing is said to be in the others. -/
theorem slots_find_congr (l : Layout) (occupied occupied' : Fin l.size.capacity → Bool)
    (hlisted : ∀ i ∈ (l.slots occupied).map Prod.snd, occupied' i = occupied i)
    (hother : ∀ i ∉ (l.slots occupied).map Prod.snd, occupied' i = false) :
    l.slots occupied' = l.slots occupied ∧ l.find occupied' = l.find occupied := by
  cases l with
  | four keys used => exact ⟨rfl, rfl⟩
  | sixteen keys used => exact ⟨rfl, rfl⟩
  | fortyEight table count => exact ⟨rfl, rfl⟩
  | full count =>
      -- Here the slots listed are those that hold something.
      have hsame : occupied' = occupied := by
        funext i
        by_cases hi : i ∈ (Direct.slots occupied).map Prod.snd
        · exact hlisted i hi
        · rw [hother i hi]
          exact (Bool.eq_false_iff.mpr fun ho => hi (Direct.mem_slots_snd.mpr ho)).symm
      rw [hsame]
      exact ⟨rfl, rfl⟩

/-- A byte leads to a slot that is listed, whatever the order of the bytes. -/
theorem mem_slots_of_find {l : Layout} {occupied : Fin l.size.capacity → Bool} {b : UInt8}
    {i : Fin l.size.capacity} (h : l.find occupied b = some i) :
    i ∈ (l.slots occupied).map Prod.snd := by
  cases l with
  | four keys used => exact Keyed.mem_slots_snd.mpr (mem_inUse.mp (List.mem_of_find?_eq_some h))
  | sixteen keys used =>
      exact Keyed.mem_slots_snd.mpr (mem_inUse.mp (List.mem_of_find?_eq_some h))
  | fortyEight table count => exact mem_tableSlots_snd.mpr ⟨b, h⟩
  | full count => exact List.mem_map_of_mem (Direct.find_eq_some.mp h)

end Layout

theorem Tree.isEmpty_trimmed (t : Tree) : (trimmed t).isEmpty = t.isEmpty := by
  cases t <;> rfl

theorem Tree.trimmed_ne_empty {t : Tree} (ht : t ≠ .empty) : trimmed t ≠ .empty := by
  cases t with
  | empty => exact absurd rfl ht
  | leaf r => exact nofun
  | node h c => exact nofun

variable (h : Header) (c : Fin (NodeHeader.width h) → Tree)

theorem Tree.trimmed_node : trimmed (.node h c) = .node h (Node.trimmedCells h c) := rfl

namespace Node

theorem trimmedCells_listed {i : Fin (NodeHeader.width h)}
    (hi : i ∈ (RadixIndex.Node.mk h c).slots.map Prod.snd) :
    trimmedCells h c i = Tree.trimmed (c i) :=
  if_pos hi

theorem slots_find_trimmed :
    (RadixIndex.Node.mk h (trimmedCells h c)).slots = (RadixIndex.Node.mk h c).slots ∧
      (RadixIndex.Node.mk h (trimmedCells h c)).find = (RadixIndex.Node.mk h c).find := by
  refine h.layout.slots_find_congr (fun i => !(c i).isEmpty)
    (fun i => !(trimmedCells h c i).isEmpty) ?_ ?_
  · intro i hi
    rw [trimmedCells_listed h c hi, Tree.isEmpty_trimmed]
  · intro i hi
    have hleft : trimmedCells h c i = .empty := if_neg hi
    rw [hleft]
    rfl

theorem slots_trimmed :
    (RadixIndex.Node.mk h (trimmedCells h c)).slots = (RadixIndex.Node.mk h c).slots :=
  (slots_find_trimmed h c).1

theorem find_trimmed :
    (RadixIndex.Node.mk h (trimmedCells h c)).find = (RadixIndex.Node.mk h c).find :=
  (slots_find_trimmed h c).2

/-- The children that are left are those of the node, trimmed. -/
theorem children_trimmed : (RadixIndex.Node.mk h (trimmedCells h c)).children =
    (RadixIndex.Node.mk h c).children.map fun e => (e.1, Tree.trimmed e.2) := by
  rw [RadixIndex.Node.children, RadixIndex.Node.children, slots_trimmed, List.map_map]
  refine List.map_congr_left ?_
  intro s hs
  exact congrArg (Prod.mk s.1) (trimmedCells_listed h c (List.mem_map_of_mem hs))

theorem branch_trimmed (depth : Nat) :
    branch ⟨h, trimmedCells h c⟩ key depth = branch ⟨h, c⟩ key depth := by
  rw [branch, branch, find_trimmed]

/-- The slot that a search goes on to is listed. -/
theorem mem_slots_of_branch {nd : Node} {depth : Nat} {i : Fin (NodeHeader.width nd.header)}
    (h : nd.branch key depth = some i) : i ∈ nd.slots.map Prod.snd := by
  rw [branch] at h
  obtain ⟨-, h⟩ := Option.ite_none_right_eq_some.mp h
  obtain ⟨b, -, hfind⟩ := Option.bind_eq_some_iff.mp h
  exact Layout.mem_slots_of_find hfind

end Node

/-! ## Records and searches -/

namespace Tree

theorem records_trimmed (t : Tree) : (trimmed t).records = t.records := by
  induction t with
  | empty => rfl
  | leaf r => rfl
  | node h c ih =>
      rw [trimmed_node, RadixIndex.Tree.records_node, RadixIndex.Tree.records_node,
        Node.children_trimmed, List.flatMap_map]
      refine List.flatMap_congr ?_
      intro e he
      obtain ⟨i, -, hi⟩ := RadixIndex.Node.mem_children.mp he
      exact hi ▸ ih i

/-- The nodes that are left are those of the tree, trimmed. -/
theorem nodes_trimmed (t : Tree) : (trimmed t).nodes =
    t.nodes.map fun nd => ⟨nd.header, Node.trimmedCells nd.header nd.child⟩ := by
  induction t with
  | empty => rfl
  | leaf r => rfl
  | node h c ih =>
      rw [trimmed_node, RadixIndex.Tree.nodes_node, RadixIndex.Tree.nodes_node,
        Node.children_trimmed, List.flatMap_map, List.map_cons, List.map_flatMap]
      refine congrArg (List.cons _) (List.flatMap_congr ?_)
      intro e he
      obtain ⟨i, -, hi⟩ := RadixIndex.Node.mem_children.mp he
      exact hi ▸ ih i

theorem leafCount_trimmed (t : Tree) : (trimmed t).leafCount = t.leafCount := by
  rw [RadixIndex.Tree.leafCount_eq, RadixIndex.Tree.leafCount_eq, records_trimmed]

theorem least?_trimmed (t : Tree) : (trimmed t).least? = t.least? := by
  induction t with
  | empty => rfl
  | leaf r => rfl
  | node h c ih =>
      rw [trimmed_node, RadixIndex.Tree.least?_node, RadixIndex.Tree.least?_node,
        Node.children_trimmed]
      cases hl : (RadixIndex.Node.mk h c).children with
      | nil => rfl
      | cons e rest =>
          obtain ⟨b, t⟩ := e
          obtain ⟨i, -, rfl⟩ := RadixIndex.Node.mem_children.mp (hl ▸ List.mem_cons_self)
          exact ih i

/-- The bytes of a stem that a node does not keep are asked of the same record. -/
theorem witness?_trimmed : (RadixIndex.Node.mk h (Node.trimmedCells h c)).witness? =
    (RadixIndex.Node.mk h c).witness? :=
  congrArg (fun r => if h.stem.length ≤ h.stem.inline.length then none else r)
    (least?_trimmed (.node h c))

theorem stemMatch_trimmed (depth : Nat) :
    (RadixIndex.Node.mk h (Node.trimmedCells h c)).stemMatch L key depth =
      (RadixIndex.Node.mk h c).stemMatch L key depth := by
  rw [RadixIndex.Node.stemMatch, RadixIndex.Node.stemMatch, witness?_trimmed]
  rfl

theorem getFrom_trimmed (t : Tree) (depth : Nat) (skipped : Bool) :
    getFrom L key (trimmed t) depth skipped = getFrom L key t depth skipped := by
  induction t generalizing depth skipped with
  | empty => rfl
  | leaf r => rfl
  | node h c ih =>
      rw [trimmed_node, getFrom_node, getFrom_node, Node.branch_trimmed]
      refine Option.bind_congr ?_
      intro i hi
      rw [Node.trimmedCells_listed h c (Node.mem_slots_of_branch hi)]
      exact ih i _ _

theorem getGuarded_trimmed (t : Tree) (depth : Nat) (skipped : Bool) :
    (trimmed t).getGuarded L key depth skipped = t.getGuarded L key depth skipped := by
  induction t generalizing depth skipped with
  | empty => rfl
  | leaf r => rfl
  | node h c ih =>
      rw [trimmed_node, RadixIndex.Tree.getGuarded_node, RadixIndex.Tree.getGuarded_node,
        Node.way_eq, Node.way_eq, Node.branch_trimmed]
      refine bind_congr ?_
      intro stop
      cases hbranch : Node.branch ⟨h, c⟩ key depth with
      | none => rfl
      | some i =>
          dsimp only
          rw [Node.trimmedCells_listed h c (Node.mem_slots_of_branch hbranch)]
          refine bind_congr ?_
          intro below
          exact ih i _ _

theorem getCheckedFrom_trimmed (t : Tree) (depth : Nat) :
    getCheckedFrom L key (trimmed t) depth = getCheckedFrom L key t depth := by
  induction t generalizing depth with
  | empty => rfl
  | leaf r => rfl
  | node h c ih =>
      rw [trimmed_node, getCheckedFrom, getCheckedFrom, stemMatch_trimmed]
      refine ite_congr rfl (fun _ => rfl) fun _ => bind_congr fun matched => ?_
      refine ite_congr rfl (fun _ => rfl) fun _ => ?_
      dsimp only
      cases key[depth + h.stem.length]? with
      | none => rfl
      | some b =>
          have hsame : NodeHeader.find h (fun i => !(Node.trimmedCells h c i).isEmpty) b =
              NodeHeader.find h (fun i => !(c i).isEmpty) b := congrFun (Node.find_trimmed h c) b
          dsimp only
          rw [hsame]
          cases hfind : NodeHeader.find h (fun i => !(c i).isEmpty) b with
          | none => rfl
          | some i =>
              dsimp only
              rw [Node.trimmedCells_listed h c (Layout.mem_slots_of_find hfind)]
              exact ih i _

end Tree

/-! ## Walks -/

namespace Cursor

open RadixIndex.Cursor

/-- The cursor with nothing in the slots of the trees to come that no byte leads to. -/
def trimmed (cur : Cursor Header) : Cursor Header :=
  ⟨cur.current, cur.pending.map Tree.trimmed⟩

theorem descend_trimmed (t : Tree) (pending : List Tree) :
    descend (Tree.trimmed t) (pending.map Tree.trimmed) = trimmed (descend t pending) := by
  induction t generalizing pending with
  | empty => rfl
  | leaf r => rfl
  | node h c ih =>
      rw [Tree.trimmed_node, descend_children, descend_children, Node.children_trimmed]
      cases hl : (RadixIndex.Node.mk h c).children with
      | nil => rfl
      | cons e rest =>
          obtain ⟨b, t⟩ := e
          obtain ⟨i, -, rfl⟩ := RadixIndex.Node.mem_children.mp (hl ▸ List.mem_cons_self)
          have hrest : (rest.map fun e => (e.1, Tree.trimmed e.2)).map Prod.snd =
              (rest.map Prod.snd).map Tree.trimmed := by
            rw [List.map_map, List.map_map]
            rfl
          rw [List.map_cons]
          dsimp only
          rw [hrest, ← List.map_append]
          exact ih i _

theorem resume_trimmed (pending : List Tree) :
    resume (pending.map Tree.trimmed) = trimmed (resume pending) := by
  cases pending with
  | nil => rfl
  | cons t rest => exact descend_trimmed t rest

theorem first_trimmed (t : Tree) : first (Tree.trimmed t) = trimmed (first t) :=
  descend_trimmed t []

variable (cur : Cursor Header)

theorem advance_trimmed : (trimmed cur).advance = trimmed cur.advance := by
  obtain ⟨current, pending⟩ := cur
  cases current with
  | none => rfl
  | some r => exact resume_trimmed pending

/-- A call is answered alike. -/
theorem answer_trimmed (call : Call) :
    (trimmed cur).answer call = ((cur.answer call).1, trimmed (cur.answer call).2) := by
  cases call with
  | current => rfl
  | advance => exact congrArg (fun cur' => (cur'.current, cur')) (advance_trimmed cur)
  | next => exact congrArg (Prod.mk cur.current) (advance_trimmed cur)

theorem history_trimmed (calls : List Call) :
    (history answer (trimmed cur) calls).map Prod.fst =
      (history answer cur calls).map Prod.fst := by
  induction calls generalizing cur with
  | nil => rfl
  | cons call calls ih =>
      rw [history, history, List.map_cons, List.map_cons, answer_trimmed, ih]

theorem after_trimmed (calls : List Call) :
    (trimmed cur).after calls = trimmed (cur.after calls) := by
  induction calls generalizing cur with
  | nil => rfl
  | cons call calls ih =>
      rw [after, after, List.foldl_cons, List.foldl_cons, answer_trimmed]
      exact ih _

/-- What a cursor walks through is told by the trimmed trees to come. -/
theorem walks_trimmed {rs : List Record} (h : (trimmed cur).Walks rs) : cur.Walks rs where
  current_eq := h.current_eq
  answers_eq calls := (history_trimmed cur calls).symm.trans (h.answers_eq calls)
  ended calls hcalls later := by
    rw [← history_trimmed, ← after_trimmed]
    exact h.ended calls hcalls later

theorem take_trimmed (n : Nat) : ((trimmed cur).take n).1 = (cur.take n).1 := by
  induction n generalizing cur with
  | zero => rfl
  | succ n ih =>
      rw [take, take, next, next, advance_trimmed]
      obtain ⟨current, pending⟩ := cur
      cases current with
      | none => rfl
      | some r => exact congrArg (List.cons r) (ih _)

theorem bound_trimmed : (trimmed cur).bound = cur.bound := by
  have hcounts : (cur.pending.map Tree.trimmed).map RadixIndex.Tree.leafCount =
      cur.pending.map RadixIndex.Tree.leafCount := by
    rw [List.map_map]
    exact List.map_congr_left fun t _ => Tree.leafCount_trimmed t
  rw [bound, bound, ← hcounts]
  rfl

end Cursor

theorem Tree.toList_trimmed (t : Tree) : (trimmed t).toList = t.toList := by
  rw [RadixIndex.Tree.toList, RadixIndex.Tree.toList, Cursor.first_trimmed,
    RadixIndex.Cursor.rest, RadixIndex.Cursor.rest, Cursor.bound_trimmed, Cursor.take_trimmed]

end RadixIndex.Dynamic
