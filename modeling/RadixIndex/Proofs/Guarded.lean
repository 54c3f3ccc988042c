/-
# Guarded searches

A guarded search that answers answers what the search without guards does
(`getGuarded_agrees`, of either family and of any tree), and in a tree that fits its place it
always answers, whatever key is looked for and whatever loader is asked
(`getGuarded_answers`): the path to a node and its stem are shorter than the keys of the
tree, so no offset is greater than their length.
-/
import RadixIndex.Proofs.Dynamic.Lookup
import RadixIndex.Proofs.Static.Formed
import RadixIndex.Tree.Guarded

namespace RadixIndex

/-! ## Guards -/

theorem Key.advance_eq_ok {depth k stop : Nat} :
    Key.advance depth k = .ok stop ↔ depth + k ≤ Key.maxOffset ∧ depth + k = stop := by
  rw [Key.advance]
  split
  · rename_i h
    simp [h]
  · rename_i h
    simp [h]

/-- At a leaf the keys have the same length, so cutting them does not fail. -/
theorem Loader.matchesGuarded_eq (L : Loader) (r : Record) (key : Key) (depth : Nat) :
    L.matchesGuarded r key depth = .ok (L.matchesFrom r key depth) := by
  rw [matchesGuarded, matchesFrom]
  by_cases hle : key.length ≤ depth
  · rw [if_pos hle, decide_eq_true hle, Bool.true_or, pure_eq_ok]
  · have hlt := Nat.le_of_lt (Nat.lt_of_not_le hle)
    rw [if_neg hle, decide_eq_false hle, Bool.false_or,
      Key.suffix_of_le (by rw [L.length_load]; exact hlt), Key.suffix_of_le hlt]
    rfl

variable {H : Type} [NodeHeader H] {L M : Loader} {n : Nat} {path stem key : Key}

/-! ## One step down -/

namespace Node

/-- The slot that a search goes on to from a node. -/
def way (nd : Node H) (key : Key) (depth : Nat) : Option (Fin (NodeHeader.width nd.header)) :=
  if nd.admits key depth then key[depth + nd.stemLength]?.bind nd.find else none

/-- The offsets around the stem of a node are no greater than the keys of the tree are long. -/
theorem Rooted.advance {nd : Node H} (hnd : nd.Rooted L n path stem) (hn : n ≤ Key.maxOffset) :
    Key.advance path.length nd.stemLength = .ok (path.length + nd.stemLength) ∧
      Key.advance (path.length + nd.stemLength) 1 = .ok (path.length + nd.stemLength + 1) := by
  have hlt := hnd.length_lt
  rw [← hnd.stemLength_eq] at hlt
  exact ⟨Key.advance_eq_ok.mpr ⟨by omega, rfl⟩, Key.advance_eq_ok.mpr ⟨by omega, rfl⟩⟩

/-- A step down leads to a child, which stands one byte after the stem. -/
theorem Rooted.way_below [LawfulHeader H] {nd : Node H} (hnd : nd.Rooted L n path stem)
    {i : Fin (NodeHeader.width nd.header)} (hi : nd.way key path.length = some i) :
    ∃ b, (b, nd.child i) ∈ nd.children ∧
      path.length + nd.stemLength + 1 = (path ++ stem ++ [b]).length := by
  rw [way] at hi
  obtain ⟨-, hi⟩ := Option.ite_none_right_eq_some.mp hi
  obtain ⟨b, -, hfind⟩ := Option.bind_eq_some_iff.mp hi
  exact ⟨b, hnd.sound.mem_children_of_find hfind,
    by rw [Key.length_below, hnd.stemLength_eq]⟩

end Node

namespace Tree

theorem getGuarded_leaf (r : Record) (depth : Nat) (skipped : Bool) :
    getGuarded L key (.leaf r : Tree H) depth skipped =
      .ok (if L.matchesFrom r key (if skipped then 0 else depth) then some r else none) := by
  rw [getGuarded, Loader.matchesGuarded_eq, ok_bind]
  cases L.matchesFrom r key (if skipped then 0 else depth) <;> rfl

theorem getGuarded_node {h : H} {c : Fin (NodeHeader.width h) → Tree H} {depth : Nat}
    {skipped : Bool} : getGuarded L key (.node h c) depth skipped = (do
      let stop ← Key.advance depth (Node.mk h c).stemLength
      match (Node.mk h c).way key depth with
      | none => return none
      | some i =>
          getGuarded L key (c i) (← Key.advance stop 1) (skipped || (Node.mk h c).cutsStem)) := by
  rw [getGuarded, Node.way]
  dsimp only
  cases hstop : Key.advance depth (Node.mk h c).stemLength with
  | error fault => rfl
  | ok stop =>
      obtain ⟨-, rfl⟩ := Key.advance_eq_ok.mp hstop
      rw [ok_bind, ok_bind]
      split
      · cases key[depth + (Node.mk h c).stemLength]? with
        | none => rfl
        | some b =>
            dsimp only [Option.bind_some, Node.find]
            cases NodeHeader.find h (fun i => !(c i).isEmpty) b <;> rfl
      · rfl

/-- Where a guarded search answers, it has gone the way that there is, with offsets that are
the sums they stand for. -/
theorem getGuarded_cases {h : H} {c : Fin (NodeHeader.width h) → Tree H} {depth : Nat}
    {skipped : Bool} {found : Option Record}
    (hfound : getGuarded L key (.node h c) depth skipped = .ok found) :
    (Node.mk h c).way key depth = none ∧ found = none ∨
      ∃ i, (Node.mk h c).way key depth = some i ∧
        getGuarded L key (c i) (depth + (Node.mk h c).stemLength + 1)
          (skipped || (Node.mk h c).cutsStem) = .ok found := by
  rw [getGuarded_node] at hfound
  obtain ⟨stop, hstop, hfound⟩ := bind_eq_ok.mp hfound
  obtain ⟨-, rfl⟩ := Key.advance_eq_ok.mp hstop
  cases hway : (Node.mk h c).way key depth with
  | none =>
      rw [hway] at hfound
      exact Or.inl ⟨rfl, (Except.ok.inj hfound).symm⟩
  | some i =>
      rw [hway] at hfound
      obtain ⟨below, hnext, hfound⟩ := bind_eq_ok.mp hfound
      obtain ⟨-, rfl⟩ := Key.advance_eq_ok.mp hnext
      exact Or.inr ⟨i, rfl, hfound⟩

/-- A guarded search in a rooted tree answers, also with another loader and for a key of
another length. -/
theorem getGuarded_answers [LawfulHeader H] {t : Tree H} (ht : t.Rooted L n path)
    (hn : n ≤ Key.maxOffset) (skipped : Bool) :
    ∃ found, getGuarded M key t path.length skipped = .ok found := by
  induction ht generalizing skipped with
  | leaf _ => exact ⟨_, getGuarded_leaf _ _ _⟩
  | @node path stem h c hsound hspells hone hbelow ih =>
      have hnd : (Node.mk h c).Rooted L n path stem := ⟨hsound, hspells, hone, hbelow⟩
      obtain ⟨hstop, hnext⟩ := hnd.advance hn
      rw [getGuarded_node, hstop, ok_bind]
      cases hway : (Node.mk h c).way key path.length with
      | none => exact ⟨none, rfl⟩
      | some i =>
          obtain ⟨b, hmem, hlen⟩ := hnd.way_below hway
          dsimp only
          rw [hnext, ok_bind, hlen]
          exact ih _ hmem _

theorem getGuarded_answers_of_root [LawfulHeader H] {t : Tree H}
    (ht : t = .empty ∨ t.Rooted L n []) (hn : n ≤ Key.maxOffset) :
    ∃ found, getGuarded M key t 0 false = .ok found := by
  rcases ht with rfl | ht
  · exact ⟨none, rfl⟩
  · exact getGuarded_answers ht hn false

end Tree

/-! ## The two families -/

namespace Dynamic

/-- A dynamic node keeps a stem whole unless it is passed over. -/
theorem Node.cutsStem_eq (nd : Node) : nd.cutsStem = nd.header.skips := by
  have hinline := nd.header.stem.inline_length
  refine decide_eq_decide.mpr ?_
  show nd.header.stem.inline.length < nd.header.stem.length ↔ _
  rw [hinline]
  omega

theorem Node.way_eq (nd : Node) (depth : Nat) : nd.way key depth = nd.branch key depth := by
  rw [RadixIndex.Node.way, branch, RadixIndex.Node.admits, Node.cutsStem_eq]
  rfl

theorem Tree.getGuarded_agrees {t : Tree} {depth : Nat} {skipped : Bool} {found : Option Record}
    (h : t.getGuarded M key depth skipped = .ok found) :
    found = getFrom M key t depth skipped := by
  induction t generalizing depth skipped with
  | empty => exact (Except.ok.inj h).symm
  | leaf r =>
      rw [RadixIndex.Tree.getGuarded_leaf] at h
      rw [getFrom]
      exact (Except.ok.inj h).symm
  | node header c ih =>
      rw [getFrom_node, ← Node.way_eq]
      rcases RadixIndex.Tree.getGuarded_cases h with ⟨hway, rfl⟩ | ⟨i, hway, hbelow⟩
      · rw [hway, Option.bind_none]
      · rw [Node.cutsStem_eq] at hbelow
        rw [hway, Option.bind_some]
        exact ih i hbelow

end Dynamic

namespace Static

/-- A static node keeps its whole stem. -/
theorem Node.cutsStem_eq (nd : Node) : nd.cutsStem = false :=
  decide_eq_false (Nat.lt_irrefl nd.header.stem.length)

theorem Tree.getFrom_way {h : Header} {c : Fin (NodeHeader.width h) → Tree} {depth : Nat} :
    getFrom L key (.node h c) depth = (RadixIndex.Node.way ⟨h, c⟩ key depth).bind fun i =>
      getFrom L key (c i) (depth + h.stem.length + 1) := by
  rw [getFrom_node, RadixIndex.Node.way, RadixIndex.Node.admits, Node.cutsStem_eq,
    Bool.false_or]
  show (if Key.continuesWith key depth h.stem then _ else _) =
    Option.bind (if Key.continuesWith key depth h.stem then _ else _) _
  split <;> rfl

theorem Tree.getGuarded_agrees {t : Tree} {depth : Nat} {found : Option Record}
    (h : t.getGuarded M key depth false = .ok found) : found = getFrom M key t depth := by
  induction t generalizing depth with
  | empty => exact (Except.ok.inj h).symm
  | leaf r =>
      rw [RadixIndex.Tree.getGuarded_leaf] at h
      rw [getFrom]
      exact (Except.ok.inj h).symm
  | node header c ih =>
      rw [getFrom_way]
      rcases RadixIndex.Tree.getGuarded_cases h with ⟨hway, rfl⟩ | ⟨i, hway, hbelow⟩
      · rw [hway, Option.bind_none]
      · rw [Node.cutsStem_eq] at hbelow
        rw [hway, Option.bind_some]
        exact ih i hbelow

end Static

end RadixIndex
