/-
# Trails are cursors

What is still to come after a trail are the later children of the nodes on its way, so a
trail stands for a cursor (`Trail.toCursor`).  Going down, moving on and seeking do the
same to the trail as to the cursor, in every tree, whatever is wrong with it: all that is
used of a node is that positions name its slots in the order in which it lists them
(`LawfulPositions`).  So a trail is found where the cursor is, or not at all with the same
fault (`Trail.toCursor_lowerBound`), and from there on it answers every sequence of calls
as the cursor does, without a fault (`Trail.run_answer`), and walks through the same records
(`Trail.exists_walks`).
-/
import RadixIndex.Proofs.Positions
import RadixIndex.Proofs.Walk
import RadixIndex.Tree.Trail

namespace RadixIndex

variable {H : Type} [NodeHeader H]

/-! ## What a trail stands for -/

/-- The children of the node after the one that was entered. -/
def Frame.later (f : Frame H) : List (Tree H) :=
  (f.node.slotsFrom (f.position + 1)).map fun s => f.node.child s.2

namespace Trail

/-- What is to be walked after the nodes of a way down. -/
def pending (frames : List (Frame H)) : List (Tree H) := frames.flatMap Frame.later

/-- The cursor in the same place. -/
def toCursor (trail : Trail H) : Cursor H := ⟨trail.current, pending trail.frames⟩

variable [LawfulPositions H] {L : Loader}

theorem pending_cons {nd : Node H} {s : UInt8 × Fin (NodeHeader.width nd.header)}
    {pre rest : List (UInt8 × Fin (NodeHeader.width nd.header))}
    (h : nd.slots = pre ++ s :: rest) (frames : List (Frame H)) :
    pending (⟨nd, nd.position s⟩ :: frames) =
      rest.map (fun s => nd.child s.2) ++ pending frames := by
  rw [pending, List.flatMap_cons, Frame.later, Node.slotsFrom_succ h, pending]

/-! ## The same steps -/

theorem toCursor_descend (t : Tree H) (frames : List (Frame H)) :
    (descend t frames).map toCursor = .ok (Cursor.descend t (pending frames)) := by
  induction t generalizing frames with
  | empty => rfl
  | leaf r => rfl
  | node h c ih =>
      rw [descend, Cursor.descend, Node.positionFrom_eq, Node.slotsFrom_zero]
      cases hslots : NodeHeader.slots h fun i => !(c i).isEmpty with
      | nil =>
          have hlisted : (Node.mk h c).slots = [] := hslots
          rw [hlisted]
          rfl
      | cons s rest =>
          have hlisted : (Node.mk h c).slots = [] ++ s :: rest := hslots
          rw [hlisted]
          dsimp only [List.nil_append, List.head?_cons, Option.map_some]
          rw [Node.slotAt_position hlisted]
          dsimp only
          rw [ih, pending_cons hlisted]

theorem toCursor_resume (frames : List (Frame H)) :
    (resume frames).map toCursor = .ok (Cursor.resume (pending frames)) := by
  induction frames with
  | nil => rfl
  | cons f frames ih =>
      rw [resume, Node.positionFrom_eq, pending, List.flatMap_cons, Frame.later, ← pending]
      cases hfrom : f.node.slotsFrom (f.position + 1) with
      | nil => exact ih
      | cons s rest =>
          obtain ⟨pre, hslots⟩ := Node.exists_slots_eq hfrom
          dsimp only [List.head?_cons, Option.map_some]
          rw [Node.childAt_position hslots, ok_bind, toCursor_descend, pending_cons hslots]
          rfl

theorem toCursor_advance (trail : Trail H) :
    (advance trail).map toCursor = .ok trail.toCursor.advance := by
  obtain ⟨current, frames⟩ := trail
  cases current with
  | none => rfl
  | some r => exact toCursor_resume frames

theorem toCursor_seekFrom (key : Key) (t : Tree H) (depth : Nat) (frames : List (Frame H)) :
    (seekFrom L key t depth frames).map toCursor =
      Cursor.seekFrom L key t depth (pending frames) := by
  induction t generalizing depth frames with
  | empty => rfl
  | leaf r =>
      rw [seekFrom, Cursor.seekFrom]
      split
      · exact toCursor_resume frames
      · rfl
  | node h c ih =>
      rw [seekFrom, Cursor.seekFrom]
      cases hstem : (Node.mk h c).compareStem L key depth with
      | error fault => rfl
      | ok side =>
          rw [ok_bind, ok_bind]
          cases side with
          | gt => exact toCursor_resume frames
          | lt => exact toCursor_descend _ frames
          | eq =>
              dsimp only
              cases hbyte : key[depth + NodeHeader.stemLength h]? with
              | none => exact toCursor_descend _ frames
              | some byte =>
                  dsimp only
                  rcases (Node.mk h c).seek_cases byte with
                    ⟨hdrop, hseek⟩ | ⟨pre, s, rest, hdrop, hslots, hseek⟩
                  · dsimp only [Node.slots] at hdrop
                    rw [hdrop, hseek]
                    exact toCursor_resume frames
                  · dsimp only [Node.slots] at hdrop
                    rw [hdrop, hseek]
                    dsimp only
                    rw [Node.slotAt_position hslots]
                    dsimp only
                    rw [← pending_cons hslots]
                    by_cases hfound : s.1 = byte
                    · rw [if_pos hfound, if_pos (beq_iff_eq.mpr hfound)]
                      exact ih s.2 (depth + NodeHeader.stemLength h + 1) _
                    · rw [if_neg hfound, if_neg fun h => hfound (beq_iff_eq.mp h)]
                      exact toCursor_descend (c s.2) _

/-- To the smallest leaf, which is found in every tree. -/
theorem toCursor_first (root : Tree H) :
    (first root).map toCursor = .ok (Cursor.first root) :=
  toCursor_descend root []

/-- To the place of a key, or to the fault on the way there. -/
theorem toCursor_lowerBound (L : Loader) (root : Tree H) (key : Key) :
    (lowerBound L root key).map toCursor = Cursor.lowerBound L root key :=
  toCursor_seekFrom key root 0 []

/-! ## The same answers -/

/-- The answer to a call, and the trail after it. -/
def answer (trail : Trail H) : Cursor.Call → Except Fault (Option Record × Trail H)
  | .current => .ok (trail.current, trail)
  | .advance => do
      let after ← advance trail
      return (after.current, after)
  | .next => do
      let after ← advance trail
      return (trail.current, after)

theorem exists_advance (trail : Trail H) :
    ∃ after, advance trail = .ok after ∧ after.toCursor = trail.toCursor.advance := by
  have hadvance := toCursor_advance trail
  cases hafter : advance trail with
  | error fault =>
      rw [hafter] at hadvance
      exact absurd hadvance nofun
  | ok after =>
      rw [hafter] at hadvance
      exact ⟨after, rfl, Except.ok.inj hadvance⟩

/-- One call is answered as by the cursor, and the trail stays in the same place. -/
theorem answer_simulates :
    StepSimulates (fun (trail : Trail H) cur => trail.toCursor = cur) answer Cursor.answer
      fun _ => True := by
  rintro trail _ call rfl -
  obtain ⟨after, hafter, hcursor⟩ := exists_advance trail
  cases call with
  | current => exact ⟨trail, rfl, rfl⟩
  | advance =>
      refine ⟨after, ?_, hcursor⟩
      rw [answer, hafter, ok_bind, Cursor.answer, ← hcursor]
      rfl
  | next =>
      refine ⟨after, ?_, hcursor⟩
      rw [answer, hafter, ok_bind]
      rfl

/-- Any calls are answered as by the cursor, and never end in a fault. -/
theorem run_answer (trail : Trail H) (calls : List Cursor.Call) :
    ∃ states, run answer trail calls = .ok states ∧
      states.map (fun x => (x.1, x.2.toCursor)) =
        history Cursor.answer trail.toCursor calls := by
  have hstep : StepSimulates (fun (trail : Trail H) cur => trail.toCursor = cur) answer
      Cursor.answer fun _ => True := answer_simulates
  obtain ⟨states, hrun, hall⟩ := run_simulates hstep rfl fun call (_ : call ∈ calls) => trivial
  refine ⟨states, hrun, ?_⟩
  rw [map_eq_of_forall₂ (g := id) hall fun x y h => Prod.ext h.1 h.2, List.map_id]

/-- The trail walks through the records: any calls are answered, and as an index into the
list answers them. -/
def Walks (trail : Trail H) (records : List Record) : Prop :=
  ∀ calls : List Cursor.Call, ∃ states, run answer trail calls = .ok states ∧
    states.map Prod.fst = (history (Cursor.Call.onIndex records) 0 calls).map Prod.fst

/-- Where a cursor is found that walks through some records, so is a trail. -/
theorem exists_walks {opened : Except Fault (Trail H)} {cur : Cursor H} {rs : List Record}
    (hopened : opened.map toCursor = .ok cur) (h : cur.Walks rs) :
    ∃ trail, opened = .ok trail ∧ trail.Walks rs := by
  cases opened with
  | error fault => exact absurd hopened nofun
  | ok trail =>
      have hcursor : trail.toCursor = cur := Except.ok.inj hopened
      refine ⟨trail, rfl, ?_⟩
      intro calls
      obtain ⟨states, hrun, hstates⟩ := run_answer trail calls
      refine ⟨states, hrun, ?_⟩
      rw [← h.answers_eq calls, ← hcursor, ← hstates, List.map_map]
      rfl

end Trail

end RadixIndex
