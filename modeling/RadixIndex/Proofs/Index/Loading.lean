/-
# What an index asks its loader

Requests are put to an index one after the other, and every question to the loader is on
record: a *transcript* lists for each request what was asked and what came of it, a reply and
the index after it, or a fault, with which the run ends.  The loader may stop at any question,
and records need not be stored under their own keys.

    ask_confined        in one request, whatever the loader answers, the questions are about
                        records in the trees, for keys of the length that the index has
    ask_run             with a loader that always answers, a request is answered as the index
                        with this loader answers it
    loads_only_stored   from the empty index on, the questions of a request are about records
                        that earlier requests were given to store, so loaders that agree on
                        these at the length of the keys have the same transcripts
-/
import RadixIndex.Proofs.Asked
import RadixIndex.Proofs.Index.Refines

namespace RadixIndex

variable {c : Config} {L L' : PartialLoader} {n : Nat} {S S' : Set Record}

/-- What the scan gives when it is asked `n` times for the next record. -/
def Scan.nexts : Nat → Scan → List (Option Record)
  | 0, _ => []
  | n + 1, s => s.next.1 :: nexts n s.next.2

namespace Index

/-! ## Requests -/

/-- What an index can be asked for: to change, or to tell what it holds. -/
inductive Request where
  | perform (o : Operation)
  | get (key : Key)
  | getChecked (key : Key)
  /-- To scan from a key on, the scan being asked `count` times for the next record. -/
  | lowerBound (key : Key) (count : Nat)
  | scan (key : Key) (count : Nat)
  /-- To scan all records, the scan being asked `count` times for the next record. -/
  | iter (count : Nat)

/-- What a request is answered with. -/
inductive Reply where
  | answer (a : Answer)
  | found (record : Option Record)
  | records (rs : List Record)
  /-- What a scan gives, one time after the other. -/
  | yields (rs : List (Option Record))
  deriving DecidableEq, Repr

/-- A request, as the index answers it. -/
def ask (x : Index) : Request → Except Fault (Reply × Index)
  | .perform o => do
      let (a, x) ← x.perform o
      return (.answer a, x)
  | .get key => return (.found (x.get key), x)
  | .getChecked key => do
      return (.found (← x.getChecked key), x)
  | .lowerBound key count => do
      return (.yields ((← x.lowerBound key).nexts count), x)
  | .scan key count => do
      return (.records (← x.scan key count), x)
  | .iter count => return (.yields (x.iter.nexts count), x)

/-- The key that an operation is about. -/
def Operation.key? : Operation → Option Key
  | .insert key _ | .upsert key _ | .erase key => some key
  | .merge => none

/-- The record that an operation is given to store. -/
def Operation.record? : Operation → Option Record
  | .insert _ record | .upsert _ record => some record
  | .erase _ | .merge => none

namespace Request

/-- The key that a request is about. -/
def key? : Request → Option Key
  | .perform o => o.key?
  | .get key | .getChecked key | .lowerBound key _ | .scan key _ => some key
  | .iter _ => none

/-- The record that a request is given to store. -/
def record? : Request → Option Record
  | .perform o => o.record?
  | _ => none

end Request

/-- The records that requests are given to store. -/
def given (requests : List Request) : List Record := requests.filterMap Request.record?

theorem mem_given_cons {q : Request} {rest : List Request} {r : Record} :
    r ∈ given (q :: rest) ↔ r ∈ q.record? ∨ r ∈ given rest := by
  simp only [given, List.mem_filterMap, List.exists_mem_cons_iff, Option.mem_def]

/-! ### With their questions -/

namespace Core

/-- What the scan gives when it is asked `n` times for the next record. -/
def Scan.nexts : Nat → Scan → Asking (List (Option Record))
  | 0, _ => return []
  | n + 1, s => do
      let (found, s) ← s.next
      return found :: (← nexts n s)

/-- An operation done to an index. -/
def perform (x : Core) : Operation → Asking (Answer × Core)
  | .insert key record => do
      let (inserted, x) ← x.insert key record
      return (.flag inserted, x)
  | .upsert key record => do
      return (.done, ← x.upsert key record)
  | .erase key => do
      let (erased, x) ← x.erase key
      return (.flag erased, x)
  | .merge => do
      let (x, outcome) ← x.merge
      return (.merged outcome, x)

/-- A request, as the index answers it. -/
def ask (x : Core) : Request → Asking (Reply × Core)
  | .perform o => do
      let (a, x) ← x.perform o
      return (.answer a, x)
  | .get key => do
      return (.found (← x.get key), x)
  | .getChecked key => do
      return (.found (← x.getChecked key), x)
  | .lowerBound key count => do
      return (.yields (← (← x.lowerBound key).nexts count), x)
  | .scan key count => do
      return (.records (← x.scan key count), x)
  | .iter count => do
      return (.yields (← x.iter.nexts count), x)

/-- What the loader was asked in a request, and what came of the request. -/
abbrev Step := List Question × Except Fault (Reply × Core)

/-- The steps of requests put to the index one after the other, the first fault being in the
last of them. -/
def transcript (L : PartialLoader) : Core → List Request → List Step
  | _, [] => []
  | x, q :: rest =>
      ((x.ask q).questions L, (x.ask q).run L) ::
        match (x.ask q).run L with
        | .error _ => []
        | .ok (_, x) => transcript L x rest

end Core

/-! ## Loaders that always answer -/

namespace Core

open RadixIndex.Asking (run_bind)

variable {x : Core} {K : Loader}

/-- What came of a request, the index with a loader. -/
def Step.outcome (K : Loader) (s : Step) : Except Fault (Reply × Index) :=
  s.2.map fun a => (a.1, a.2.withLoader K)

theorem Scan.nexts_run {s : Scan} (count : Nat) :
    (s.nexts count).run K.toPartial = .ok ((s.withLoader K).nexts count) := by
  induction count generalizing s with
  | zero => rfl
  | succ count ih =>
      obtain ⟨⟨found, s'⟩, hnext, heq⟩ := map_eq_ok.mp (Scan.next_run (s := s) (L := K))
      rw [Scan.nexts, RadixIndex.Scan.nexts, run_bind, hnext, ok_bind, ← heq]
      dsimp only
      rw [run_bind, ih]
      rfl

theorem perform_run (o : Operation) :
    (fun a => (a.1, a.2.withLoader K)) <$> (x.perform o).run K.toPartial =
      (x.withLoader K).perform o := by
  cases o with
  | insert key record =>
      rw [perform, Index.perform, run_bind, map_bind, ← insert_run, bind_map_left]
      rfl
  | upsert key record =>
      rw [perform, Index.perform, run_bind, map_bind, ← upsert_run, bind_map_left]
      rfl
  | erase key =>
      rw [perform, Index.perform, run_bind, map_bind, ← erase_run, bind_map_left]
      rfl
  | merge =>
      rw [perform, Index.perform, run_bind, map_bind, ← merge_run, bind_map_left]
      rfl

/-- With a loader that always answers, a request is answered as the index with it does. -/
theorem ask_run (q : Request) :
    (fun a => (a.1, a.2.withLoader K)) <$> (x.ask q).run K.toPartial =
      (x.withLoader K).ask q := by
  cases q with
  | perform o =>
      rw [ask, Index.ask, run_bind, map_bind, ← perform_run, bind_map_left]
      rfl
  | get key =>
      rw [ask, Index.ask, run_bind, get_run]
      rfl
  | getChecked key =>
      rw [ask, Index.ask, run_bind, map_bind, getChecked_run]
      rfl
  | lowerBound key count =>
      rw [ask, Index.ask, run_bind, map_bind, ← lowerBound_run, bind_map_left]
      refine bind_congr fun s => ?_
      rw [run_bind, s.nexts_run]
      rfl
  | scan key count =>
      rw [ask, Index.ask, run_bind, map_bind, scan_run]
      rfl
  | iter count =>
      rw [ask, Index.ask, run_bind, Scan.nexts_run]
      rfl

theorem transcript_outcomes (requests : List Request) :
    (x.transcript K.toPartial requests).map (Step.outcome K) =
      trace Index.ask (x.withLoader K) requests := by
  induction requests generalizing x with
  | nil => rfl
  | cons q rest ih =>
      rw [transcript, trace, ← ask_run, List.map_cons, Step.outcome]
      cases (x.ask q).run K.toPartial with
      | error fault => rfl
      | ok a => exact congrArg (_ :: ·) ih

end Core

/-! ## Indexes within a set of records -/

namespace Core

/-- The cursors of the scan are within the set, and it asks for keys of `n` bytes. -/
structure Scan.Within (S : Set Record) (n : Nat) (s : Scan) : Prop where
  keyLength_eq : s.keyLength = n
  dynamic : s.dynamic.Within S
  frozen : s.frozen.Within S

/-- The index is for keys of `n` bytes, and all that is in its trees is of the set. -/
structure Within (S : Set Record) (n : Nat) (x : Core) : Prop where
  keyLength_eq : x.config.keyLength = n
  dynamic : x.dynamic.Within S n
  frozen : x.frozen.Within S n

theorem within_new (c : Config) (S : Set Record) : (new c).Within S c.keyLength :=
  ⟨rfl, DynamicTree.within_empty S _, StaticTree.within_empty S _⟩

namespace Scan.Within

variable {s : Scan}

theorem next_confined (h : s.Within S n) :
    s.next.Confined S n fun a => a.2.Within S n := by
  obtain rfl := h.keyLength_eq
  rw [next]
  cases hdynamic : s.dynamic.current with
  | none =>
      cases hfrozen : s.frozen.current with
      | none => exact .pure h
      | some f => exact .pure ⟨rfl, h.dynamic, h.frozen.advance⟩
  | some d =>
      cases hfrozen : s.frozen.current with
      | none => exact .pure ⟨rfl, h.dynamic.advance, h.frozen⟩
      | some f =>
          refine .bind (.load (h.dynamic.current d hdynamic)) fun dynamicKey _ => ?_
          refine .bind (.load (h.frozen.current f hfrozen)) fun frozenKey _ => ?_
          cases compare dynamicKey frozenKey with
          | lt => exact .pure ⟨rfl, h.dynamic.advance, h.frozen⟩
          | gt => exact .pure ⟨rfl, h.dynamic, h.frozen.advance⟩
          | eq => exact .pure ⟨rfl, h.dynamic.advance, h.frozen.advance⟩

theorem nexts_confined (h : s.Within S n) (count : Nat) :
    (s.nexts count).Confined S n fun _ => True := by
  induction count generalizing s with
  | zero => exact .pure trivial
  | succ count ih =>
      refine .bind h.next_confined fun a ha => ?_
      exact .bind (ih ha) fun _ _ => .pure trivial

theorem take_confined (h : s.Within S n) (count : Nat) :
    (s.take count).Confined S n fun _ => True := by
  induction count generalizing s with
  | zero => exact .pure trivial
  | succ count ih =>
      refine .bind h.next_confined fun a ha => ?_
      obtain ⟨found, s'⟩ := a
      cases found with
      | none => exact .pure trivial
      | some r => exact .bind (ih ha) fun _ _ => .pure trivial

end Scan.Within

namespace Within

variable {x : Core} {key : Key} {record : Record}

theorem mono (hS : S ⊆ S') (h : x.Within S n) : x.Within S' n :=
  ⟨h.keyLength_eq, h.dynamic.mono hS, h.frozen.mono hS⟩

theorem merge_confined (h : x.Within S n) : x.merge.Confined S n fun a => a.1.Within S n := by
  rw [merge]
  split
  · exact .pure h
  · refine .bind h.dynamic.freeze_confined fun a ha => ?_
    obtain ⟨hfresh, hdynamic⟩ := ha
    dsimp only
    split
    · exact .pure ⟨h.keyLength_eq, hdynamic, hfresh⟩
    · refine .bind (hfresh.merge_confined h.frozen) fun b hfrozen => ?_
      exact .pure ⟨h.keyLength_eq, hdynamic, hfrozen⟩

theorem mergeIfDue_confined (h : x.Within S n) : x.mergeIfDue.Confined S n (Within S n) := by
  rw [mergeIfDue]
  split
  · exact .bind h.merge_confined fun _ ha => .pure ha
  · exact .pure h

theorem iter (h : x.Within S n) : x.iter.Within S n :=
  ⟨h.keyLength_eq, Cursor.first_within h.dynamic.root, Cursor.first_within h.frozen.root⟩

section Keys

variable (h : x.Within S n) (hk : key.length = n)

include h hk

theorem get_confined : (x.get key).Confined S n fun _ => True := by
  refine .bind (Dynamic.Tree.getFrom_confined hk h.dynamic.root false) fun found _ => ?_
  cases found with
  | none => exact Static.Tree.getFrom_confined hk h.frozen.root
  | some r => exact .pure trivial

theorem getChecked_confined : (x.getChecked key).Confined S n fun _ => True := by
  refine .bind (Dynamic.Tree.getCheckedFrom_confined hk h.dynamic.root) fun found _ => ?_
  cases found with
  | none => exact Static.Tree.getFrom_confined hk h.frozen.root
  | some r => exact .pure trivial

theorem insert_confined : (x.insert key record).Confined S n
    fun a => a.2.Within (Insert.insert record S) n := by
  refine .bind h.mergeIfDue_confined fun y hy => ?_
  refine .bind (hy.dynamic.insert_confined hk) fun a hdynamic => ?_
  exact .pure ⟨hy.keyLength_eq, hdynamic, hy.frozen.mono (Set.subset_insert record S)⟩

theorem upsert_confined : (x.upsert key record).Confined S n
    (Within (Insert.insert record S) n) := by
  refine .bind h.mergeIfDue_confined fun y hy => ?_
  refine .bind (hy.dynamic.upsert_confined hk) fun dynamic hdynamic => ?_
  exact .pure ⟨hy.keyLength_eq, hdynamic, hy.frozen.mono (Set.subset_insert record S)⟩

theorem erase_confined : (x.erase key).Confined S n fun a => a.2.Within S n := by
  refine .bind (h.dynamic.erase_confined hk) fun a hdynamic => ?_
  exact .pure ⟨h.keyLength_eq, hdynamic, h.frozen⟩

theorem lowerBound_confined : (x.lowerBound key).Confined S n (Scan.Within S n) := by
  refine .bind (Cursor.lowerBound_confined hk h.dynamic.root) fun dynamic hdynamic => ?_
  refine .bind (Cursor.lowerBound_confined hk h.frozen.root) fun frozen hfrozen => ?_
  exact .pure ⟨h.keyLength_eq, hdynamic, hfrozen⟩

theorem scan_confined (count : Nat) : (x.scan key count).Confined S n fun _ => True :=
  .bind (h.lowerBound_confined hk) fun _ hs => hs.take_confined count

end Keys

/-- An operation asks about records in the trees, and what it is given to store is in the
trees after it. -/
theorem perform_confined (h : x.Within S n) {o : Operation}
    (ho : ∀ key ∈ o.key?, key.length = n) :
    (x.perform o).Confined S n fun a => a.2.Within ({r | r ∈ o.record?} ∪ S) n := by
  have hinsert (record : Record) : Insert.insert record S ⊆ {r | r ∈ some record} ∪ S := by
    rintro r (rfl | hr)
    · exact Or.inl rfl
    · exact Or.inr hr
  cases o with
  | insert key record =>
      exact .bind (h.insert_confined (ho key rfl)) fun a ha => .pure (ha.mono (hinsert record))
  | upsert key record =>
      exact .bind (h.upsert_confined (ho key rfl)) fun a ha => .pure (ha.mono (hinsert record))
  | erase key =>
      exact .bind (h.erase_confined (ho key rfl)) fun a ha => .pure (ha.mono Set.subset_union_right)
  | merge => exact .bind h.merge_confined fun a ha => .pure (ha.mono Set.subset_union_right)

/-- A request asks about records in the trees, and what it is given to store is in the trees
after it. -/
theorem ask_confined (h : x.Within S n) {q : Request} (hq : ∀ key ∈ q.key?, key.length = n) :
    (x.ask q).Confined S n fun a => a.2.Within ({r | r ∈ q.record?} ∪ S) n := by
  have hkept : x.Within ({r | r ∈ q.record?} ∪ S) n := h.mono Set.subset_union_right
  cases q with
  | perform o => exact .bind (h.perform_confined hq) fun _ ha => .pure ha
  | get key => exact .bind (h.get_confined (hq key rfl)) fun _ _ => .pure hkept
  | getChecked key => exact .bind (h.getChecked_confined (hq key rfl)) fun _ _ => .pure hkept
  | lowerBound key count =>
      refine .bind (h.lowerBound_confined (hq key rfl)) fun s hs => ?_
      exact .bind (hs.nexts_confined count) fun _ _ => .pure hkept
  | scan key count => exact .bind (h.scan_confined (hq key rfl) count) fun _ _ => .pure hkept
  | iter count => exact .bind (h.iter.nexts_confined count) fun _ _ => .pure hkept

/-! ## Runs of requests -/

variable {requests : List Request}

/-- Loaders that agree on what is in the trees and on what all requests but the last are given
to store are asked the same and answer the same. -/
theorem transcript_eq (h : x.Within S n) (hkeys : ∀ q ∈ requests, ∀ key ∈ q.key?, key.length = n)
    (hS : L.AgreesOn L' n S)
    (hgiven : ∀ r ∈ given requests.dropLast, L.load r n = L'.load r n) :
    x.transcript L requests = x.transcript L' requests := by
  induction requests generalizing x S with
  | nil => rfl
  | cons q rest ih =>
      have hask := h.ask_confined (hkeys q List.mem_cons_self)
      rw [transcript, transcript, hask.questions_eq hS, ← hask.run_eq hS]
      cases hrun : (x.ask q).run L with
      | error fault => rfl
      | ok a =>
          refine congrArg (_ :: ·) ?_
          cases rest with
          | nil => rfl
          | cons q' rest =>
              -- What this request is given to store is asked about from the next one on.
              refine ih (hask.of_run hrun) (fun q hq => hkeys q (List.mem_cons_of_mem _ hq)) ?_ ?_
              · rintro r (hr | hr)
                · exact hgiven r (mem_given_cons.mpr (Or.inl hr))
                · exact hS r hr
              · exact fun r hr => hgiven r (mem_given_cons.mpr (Or.inr hr))

/-- What a request asks is about records that were in the trees at the start, or that earlier
requests were given to store. -/
theorem mem_transcript (h : x.Within S n)
    (hkeys : ∀ q ∈ requests, ∀ key ∈ q.key?, key.length = n) {i : Nat} {s : Step}
    (hs : (x.transcript L requests)[i]? = some s) :
    ∀ q ∈ s.1, (q.record ∈ S ∨ q.record ∈ given (requests.take i)) ∧ q.length = n := by
  induction requests generalizing x S i with
  | nil => exact absurd hs nofun
  | cons o rest ih =>
      have hask := h.ask_confined (hkeys o List.mem_cons_self)
      rw [transcript] at hs
      cases i with
      | zero =>
          obtain rfl := Option.some.inj hs
          exact fun q hq => (hask.mem_questions q hq).imp_left Or.inl
      | succ i =>
          rw [List.getElem?_cons_succ] at hs
          cases hrun : (x.ask o).run L with
          | error fault =>
              rw [hrun] at hs
              exact absurd hs nofun
          | ok a =>
              rw [hrun] at hs
              intro q hq
              obtain ⟨hrecord, hlength⟩ := ih (hask.of_run hrun)
                (fun q hq => hkeys q (List.mem_cons_of_mem _ hq)) hs q hq
              refine ⟨?_, hlength⟩
              rw [List.take_succ_cons, mem_given_cons]
              rcases hrecord with (hr | hr) | hr
              · exact Or.inr (Or.inl hr)
              · exact Or.inl hr
              · exact Or.inr (Or.inr hr)

end Within

end Core

/-- From the empty index on, what a request asks the loader is about records that earlier
requests were given to store, and for keys of the length of the index.  So two loaders, which
may stop wherever they like, have the same transcript if they agree on these records at this
length: they are asked the same, and they leave the same replies, faults, trees, sizes and
counters.  Where a loader that always answers gives the same keys for these records, the index
with that loader has the outcomes of the transcript. -/
theorem loads_only_stored (hc : c.validate = .ok ()) {requests : List Request}
    (hkeys : ∀ q ∈ requests, ∀ key ∈ q.key?, key.length = c.keyLength)
    (hL : ∀ r ∈ given requests.dropLast, L.load r c.keyLength = L'.load r c.keyLength) :
    ∃ x, Core.withConfig c = .ok x ∧
      x.transcript L requests = x.transcript L' requests ∧
      (∀ (i : Nat) (s : Core.Step), (x.transcript L requests)[i]? = some s →
        ∀ q ∈ s.1, q.record ∈ given (requests.take i) ∧ q.length = c.keyLength) ∧
      ∀ K : Loader, (∀ r ∈ given requests.dropLast,
          L.load r c.keyLength = .ok (K.load r c.keyLength)) →
        withConfig c K = .ok (x.withLoader K) ∧
          (x.transcript L requests).map (Core.Step.outcome K) =
            trace ask (x.withLoader K) requests := by
  have hnew := Core.within_new c ∅
  have hempty (L L' : PartialLoader) : L.AgreesOn L' c.keyLength ∅ :=
    fun _ h => absurd h (Set.notMem_empty _)
  refine ⟨Core.new c, ?_, hnew.transcript_eq hkeys (hempty L L') hL, ?_, ?_⟩
  · rw [Core.withConfig, hc]
    rfl
  · intro i s hs q hq
    obtain ⟨hrecord, hlength⟩ := hnew.mem_transcript hkeys hs q hq
    exact ⟨hrecord.resolve_left (Set.notMem_empty _), hlength⟩
  · intro K hK
    refine ⟨withConfig_eq hc K, ?_⟩
    rw [hnew.transcript_eq hkeys (hempty L K.toPartial) hK, Core.transcript_outcomes]

/-- Records under foreign keys with a long stem in common, merges into both an empty and a full
static tree, and a last record that one of the two tables does not have. -/
theorem loads_only_stored_of_foreign_keys :
    let c : Config := { keyLength := 12 }
    let key (a b : UInt8) : Key := List.replicate 10 7 ++ [a, b]
    let rows : List Key := [key 1 1, key 2 1, key 2 3, key 2 2]
    let L := PartialLoader.table (rows ++ [key 5 5])
    let L' := PartialLoader.table rows
    let K := Loader.table rows.toArray
    let requests : List Request := [.perform (.insert (key 9 9) 0), .perform (.insert (key 2 2) 1),
      .perform (.insert (key 2 3) 2), .get (key 1 1), .getChecked (key 2 3), .perform .merge,
      .perform (.upsert (key 2 3) 3), .lowerBound (key 2 0) 3, .scan (key 0 0) 9, .iter 5,
      .perform (.upsert (key 1 1) 0), .perform .merge, .perform (.erase (key 2 2)),
      .perform (.insert (key 5 5) 4)]
    L.load 4 12 ≠ L'.load 4 12 ∧
      ∃ x, Core.withConfig c = .ok x ∧
        x.transcript L requests = x.transcript L' requests ∧
        (∀ (i : Nat) (s : Core.Step), (x.transcript L requests)[i]? = some s →
          ∀ q ∈ s.1, q.record ∈ given (requests.take i) ∧ q.length = 12) ∧
        withConfig c K = .ok (x.withLoader K) ∧
          (x.transcript L requests).map (Core.Step.outcome K) =
            trace ask (x.withLoader K) requests := by
  intro c key rows L L' K requests
  have hkeys : ∀ q ∈ requests, ∀ key ∈ q.key?, key.length = c.keyLength := by decide
  have hgiven : given requests.dropLast = [0, 1, 2, 3, 0] := rfl
  have hL : ∀ r ∈ given requests.dropLast, L.load r 12 = L'.load r 12 := by
    simp only [hgiven, List.forall_mem_cons]
    exact ⟨rfl, rfl, rfl, rfl, rfl, List.forall_mem_nil _⟩
  have hK : ∀ r ∈ given requests.dropLast, L.load r 12 = .ok (K.load r 12) := by
    simp only [hgiven, List.forall_mem_cons]
    exact ⟨rfl, rfl, rfl, rfl, rfl, List.forall_mem_nil _⟩
  obtain ⟨x, hx, hsame, hasked, hanswered⟩ := loads_only_stored (c := c) rfl hkeys hL
  exact ⟨by decide, x, hx, hsame, hasked, hanswered K hK⟩

/-- The record that is to be stored is not asked about, the one that is in its way is. -/
example : ((Core.new { keyLength := 2 }).transcript (.table [[0, 1], [0, 2]])
    [.perform (.insert [0, 1] 0), .perform (.insert [0, 2] 1)]).map Prod.fst =
      [[], [⟨0, 2⟩]] := by decide

end Index

end RadixIndex
