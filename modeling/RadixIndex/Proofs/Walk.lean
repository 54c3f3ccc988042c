/-
# Walks

A cursor can be asked for the record it stands on, and moved on, with the record before
the move or the one after it as the answer.  Asked in any order, it answers as an index
into a list of records does that moves by one place and stays at the end
(`Cursor.Walks`); which list, is told by lookups (`Listing`).

The invariant is that of the cursor: after `i` moves it shows what is left of the list
without its first `i` records.  It holds of cursors in trees of either family, wherever
they were opened (`cursors_walk`).
-/
import RadixIndex.Proofs.Cursor
import RadixIndex.Proofs.Runs
import RadixIndex.Proofs.Static.Union

namespace RadixIndex

variable {H : Type} [NodeHeader H] {L : Loader} {n : Nat}

namespace Cursor

/-! ## Calls -/

/-- What can be asked of a cursor. -/
inductive Call where
  | current
  | advance
  | next
  deriving DecidableEq

/-- The answer to a call, and the cursor after it. -/
def answer (cur : Cursor H) : Call → Option Record × Cursor H
  | .current => (cur.current, cur)
  | .advance => (cur.advance.current, cur.advance)
  | .next => cur.next

/-- The cursor after a number of calls. -/
def after (cur : Cursor H) (calls : List Call) : Cursor H :=
  calls.foldl (fun cur call => (cur.answer call).2) cur

/-- The call moves the cursor on. -/
def Call.moves : Call → Bool
  | .current => false
  | .advance | .next => true

/-- The answer to a call at a place in a list, and the place after it; the place behind
the last record is never left. -/
def Call.onIndex (records : List Record) (i : Nat) : Call → Option Record × Nat
  | .current => (records[i]?, i)
  | .advance => (records[min (i + 1) records.length]?, min (i + 1) records.length)
  | .next => (records[i]?, min (i + 1) records.length)

/-- The cursor walks through the records: it stands on the first of them, any calls are
answered as an index into the list does, and after as many moves as there are records
all answers are `none` for ever. -/
structure Walks (cur : Cursor H) (records : List Record) : Prop where
  current_eq : cur.current = records.head?
  answers_eq : ∀ calls : List Call,
    (history answer cur calls).map Prod.fst =
      (history (Call.onIndex records) 0 calls).map Prod.fst
  ended : ∀ calls : List Call, records.length ≤ calls.countP Call.moves →
    ∀ later : List Call, ∀ a ∈ (history answer (cur.after calls) later).map Prod.fst, a = none

/-! ## What a cursor shows, call by call -/

variable {cur : Cursor H} {rs : List Record} {i : Nat}

theorem Shows.advance_drop (h : cur.Shows L n (rs.drop i)) :
    cur.advance.Shows L n (rs.drop (i + 1)) := by
  rw [← List.tail_drop]
  exact h.advance

theorem Shows.current_drop (h : cur.Shows L n (rs.drop i)) : cur.current = rs[i]? := by
  rw [h.current_eq, List.head?_drop]

/-- A list has nothing behind its end, wherever behind it one looks. -/
theorem drop_min_length (rs : List Record) (i : Nat) :
    rs.drop (min i rs.length) = rs.drop i := by
  rcases Nat.le_total i rs.length with hle | hle
  · rw [Nat.min_eq_left hle]
  · rw [Nat.min_eq_right hle, List.drop_length, List.drop_eq_nil_of_le hle]

theorem getElem?_min_length (rs : List Record) (i : Nat) : rs[min i rs.length]? = rs[i]? := by
  rw [← List.head?_drop, drop_min_length, List.head?_drop]

/-- One call is answered as at the place, and shows what is left from the next place. -/
theorem Shows.answer (h : cur.Shows L n (rs.drop i)) (call : Call) :
    (cur.answer call).1 = (call.onIndex rs i).1 ∧
      (cur.answer call).2.Shows L n (rs.drop (call.onIndex rs i).2) := by
  cases call with
  | current => exact ⟨h.current_drop, h⟩
  | advance =>
      rw [Call.onIndex, drop_min_length, getElem?_min_length]
      exact ⟨h.advance_drop.current_drop, h.advance_drop⟩
  | next =>
      rw [Call.onIndex, drop_min_length]
      exact ⟨h.current_drop, h.advance_drop⟩

theorem Shows.answers_eq (h : cur.Shows L n (rs.drop i)) (calls : List Call) :
    (history Cursor.answer cur calls).map Prod.fst =
      (history (Call.onIndex rs) i calls).map Prod.fst := by
  induction calls generalizing cur i with
  | nil => rfl
  | cons call calls ih =>
      obtain ⟨hanswer, hshows⟩ := h.answer call
      rw [history, history, List.map_cons, List.map_cons, ih hshows, hanswer]

/-- What is left from the next place is less by one record if the call moves. -/
theorem Call.drop_onIndex (call : Call) (rs : List Record) (i : Nat) :
    rs.drop (call.onIndex rs i).2 = rs.drop (i + [call].countP Call.moves) := by
  cases call with
  | current => rfl
  | advance => exact drop_min_length rs (i + 1)
  | next => exact drop_min_length rs (i + 1)

/-- After any calls, as many records are gone as there were moves. -/
theorem Shows.after (h : cur.Shows L n (rs.drop i)) (calls : List Call) :
    (cur.after calls).Shows L n (rs.drop (i + calls.countP Call.moves)) := by
  induction calls generalizing cur i with
  | nil => exact h
  | cons call calls ih =>
      obtain ⟨-, hshows⟩ := h.answer call
      rw [Call.drop_onIndex] at hshows
      rw [← List.singleton_append, List.countP_append, ← Nat.add_assoc]
      exact ih hshows

/-- A cursor that shows nothing answers nothing, and goes on showing nothing. -/
theorem Shows.silent (h : cur.Shows L n []) (calls : List Call) :
    ∀ a ∈ (history Cursor.answer cur calls).map Prod.fst, a = none := by
  induction calls generalizing cur with
  | nil => exact fun _ ha => absurd ha List.not_mem_nil
  | cons call calls ih =>
      have hdrop : cur.Shows L n (([] : List Record).drop 0) := h
      obtain ⟨hanswer, hshows⟩ := hdrop.answer call
      rw [List.drop_nil] at hshows
      intro a ha
      rcases List.mem_cons.mp ha with rfl | ha
      · rw [hanswer]
        cases call <;> rfl
      · exact ih hshows a ha

/-- A cursor walks through what it shows. -/
theorem Shows.walks (h : cur.Shows L n rs) : cur.Walks rs where
  current_eq := h.current_eq
  answers_eq := Shows.answers_eq (i := 0) h
  ended calls hcalls := by
    have hshows := Shows.after (i := 0) h calls
    rw [Nat.zero_add, List.drop_eq_nil_of_le hcalls] at hshows
    exact hshows.silent

end Cursor

/-! ## The records of a tree -/

/-- The list has the records that lookups find under the wanted keys of `n` bytes, each
once and in the order of the keys. -/
structure Listing (L : Loader) (n : Nat) (get : Key → Option Record) (wanted : Key → Prop)
    (records : List Record) : Prop where
  ascending : (records.map fun r => L.load r n).Pairwise (· < ·)
  mem_iff : ∀ r, r ∈ records ↔ wanted (L.load r n) ∧ get (L.load r n) = some r

/-- The cursors of a tree, told by its lookups and the number of its records, walk through
the records from a key on, and through all records. -/
structure CursorsWalk (L : Loader) (n : Nat) (get : Key → Option Record) (size : Nat)
    (lowerBound : Key → Except Fault (Cursor H)) (first : Cursor H) : Prop where
  lowerBound_walks : ∀ key : Key, key.length = n →
    ∃ cur records, lowerBound key = .ok cur ∧ Listing L n get (key ≤ ·) records ∧
      cur.Walks records
  first_walks : ∃ records, Listing L n get (fun _ => True) records ∧ records.length = size ∧
    first.Walks records

section Trees

variable {t : Tree H} {m : Contents} {get : Key → Option Record}

/-- It is enough that the tree is rooted and holds what lookups find. -/
theorem Tree.cursorsWalk (ht : t = .empty ∨ t.Rooted L n []) (hholds : Holds L n t.records m)
    (hget : ∀ key : Key, key.length = n → get key = m.lookup key) :
    CursorsWalk L n get t.records.length (Cursor.lowerBound L t) (Cursor.first t) where
  lowerBound_walks key hk := by
    obtain ⟨cur, hseek, hshows⟩ := Cursor.lowerBound_ok ht hk
    refine ⟨cur, _, hseek, ⟨?_, ?_⟩, hshows.walks⟩
    · exact List.pairwise_map.mpr ((Tree.ordered_of_root ht).sublist List.filter_sublist)
    · intro r
      rw [Cursor.notBelow, List.mem_filter, decide_eq_true_eq, hholds.get_load hget, and_comm]
  first_walks := by
    refine ⟨t.records, ⟨List.pairwise_map.mpr (Tree.ordered_of_root ht), ?_⟩, rfl,
      (Cursor.first_shows ht).walks⟩
    intro r
    rw [hholds.get_load hget, true_and]

end Trees

/-- In every dynamic and every static tree that there can be, a cursor opened at a key
walks through the records from the key on, and one opened at the beginning through all
records.  What freezing leaves of a dynamic tree is the empty one, where writes begin. -/
theorem cursors_walk (L : Loader) (n : Nat) :
    (∀ t : DynamicTree, t.Reachable L n →
      CursorsWalk L n (t.get L) t.size (t.lowerBound L) t.first) ∧
    ∀ t : StaticTree, t.Reachable L n →
      CursorsWalk L n (t.get L) t.size (t.lowerBound L) t.first := by
  constructor
  · intro t ht
    obtain ⟨m, hm⟩ := ht.refines
    rw [hm.size_eq]
    exact Tree.cursorsWalk hm.rooted hm.holds fun _ hk => hm.get_eq hk
  · intro t ht
    obtain ⟨m, hm⟩ := ht.refines
    rw [hm.size_eq]
    exact Tree.cursorsWalk hm.rooted hm.holds fun _ hk => hm.get_eq hk

/-- A dynamic tree with a node, and what it is frozen to. -/
theorem cursors_walk_of_two_records :
    let L := Loader.modulo 65536
    ∃ (t : DynamicTree) (f : StaticTree), t.size = 2 ∧ t.freeze L {} = .ok (f, .empty 2) ∧
      CursorsWalk L 2 (t.get L) t.size (t.lowerBound L) t.first ∧
        CursorsWalk L 2 (f.get L) f.size (f.lowerBound L) f.first := by
  have hmade : ∃ t : DynamicTree, t.size = 2 ∧ t.Reachable (.modulo 65536) 2 := by
    refine ⟨_, ?_, .write (w := .insert [0, 2] 2)
      (.write (w := .insert [0, 1] 1) .empty ⟨rfl, by decide⟩ rfl) ⟨rfl, by decide⟩ rfl⟩
    rfl
  obtain ⟨t, hsize, ht⟩ := hmade
  obtain ⟨m, hm⟩ := ht.refines
  obtain ⟨f, hf, -⟩ := StaticTree.freeze_ok hm {}
  exact ⟨t, f, hsize, hf, (cursors_walk (.modulo 65536) 2).1 t ht,
    (cursors_walk (.modulo 65536) 2).2 f (.freeze ht hf)⟩

end RadixIndex
