/-
# Scans agree with lookups

A scan shows the records that its cursors show, woven into one list (`next_yields`), so
it gives them one by one and nothing after them.  In an index that there can be, these
are the records that lookups find under the keys from some key on, or under all keys,
each once and in the order of the keys (`scan_agrees`).
-/
import RadixIndex.Index.Scan
import RadixIndex.Proofs.Cursor
import RadixIndex.Proofs.Index.Refines
import RadixIndex.Proofs.Index.Weave

namespace RadixIndex

variable {L : Loader} {n : Nat} {key : Key}

namespace Scan

/-! ## What a scan yields -/

/-- The scan after a number of records have been asked for. -/
def after (s : Scan) : Nat → Scan
  | 0 => s
  | i + 1 => s.next.2.after i

/-- The records still to come are those that the two cursors show, woven. -/
structure Yields (L : Loader) (n : Nat) (s : Scan) (rs : List Record) : Prop where
  loader_eq : s.loader = L
  keyLength_eq : s.keyLength = n
  woven : ∃ ds fs, s.dynamic.Shows L n ds ∧ s.frozen.Shows L n fs ∧ weave L n ds fs = rs

variable {s : Scan} {rs : List Record}

/-- The next record is the first one of the list, and the others are still to come. -/
theorem next_yields (h : s.Yields L n rs) :
    s.next.1 = rs.head? ∧ s.next.2.Yields L n rs.tail := by
  obtain ⟨hloader, hlength, ds, fs, hds, hfs, rfl⟩ := h
  have hd := hds.advance
  have hf := hfs.advance
  rw [next, hds.current_eq, hfs.current_eq, hloader, hlength]
  cases ds with
  | nil =>
      rw [weave_nil_left]
      cases fs with
      | nil => exact ⟨rfl, hloader, hlength, [], [], hds, hfs, weave_nil_left []⟩
      | cons f fs => exact ⟨rfl, rfl, rfl, [], fs, hds, hf, weave_nil_left fs⟩
  | cons d ds =>
      cases fs with
      | nil =>
          rw [weave_nil_right]
          exact ⟨rfl, rfl, rfl, ds, [], hd, hfs, weave_nil_right ds⟩
      | cons f fs =>
          dsimp only [List.head?_cons]
          cases horder : compare (L.load d n) (L.load f n) with
          | lt =>
              rw [weave_lt horder]
              exact ⟨rfl, rfl, rfl, ds, f :: fs, hd, hfs, rfl⟩
          | gt =>
              rw [weave_gt horder]
              exact ⟨rfl, rfl, rfl, d :: ds, fs, hds, hf, rfl⟩
          | eq =>
              -- Both trees hold the key, and both cursors move on.
              rw [weave_eq horder]
              exact ⟨rfl, rfl, rfl, ds, fs, hd, hf, rfl⟩

theorem take_eq (h : s.Yields L n rs) (m : Nat) : s.take m = rs.take m := by
  induction m generalizing s rs with
  | zero => rfl
  | succ m ih =>
      obtain ⟨hnext, hrest⟩ := next_yields h
      rw [take]
      generalize s.next = answer at hnext hrest
      obtain ⟨next, s'⟩ := answer
      obtain rfl : next = rs.head? := hnext
      cases rs with
      | nil => rfl
      | cons r rest => exact congrArg (List.cons r) (ih hrest)

/-- Asked again and again, the scan gives one record of the list after the other, and
then nothing for ever. -/
theorem next_after (h : s.Yields L n rs) (i : Nat) : (s.after i).next.1 = rs[i]? := by
  induction i generalizing s rs with
  | zero => rw [after, (next_yields h).1, List.head?_eq_getElem?]
  | succ i ih => rw [after, ih (next_yields h).2, List.getElem?_tail]

theorem length_le_bound (h : s.Yields L n rs) :
    rs.length ≤ s.dynamic.bound + s.frozen.bound := by
  obtain ⟨-, -, ds, fs, hds, hfs, rfl⟩ := h
  have hle := length_weave_le (L := L) (n := n) ds fs
  have hd := hds.length_le_bound
  have hf := hfs.length_le_bound
  omega

theorem rest_eq (h : s.Yields L n rs) : s.rest = rs := by
  rw [rest, take_eq h, List.take_of_length_le (length_le_bound h)]

end Scan

/-! ## Parts of both lists -/

theorem Cursor.notBelow_ordered {rs : List Record} (h : L.Ordered n rs) :
    L.Ordered n (notBelow L n key rs) :=
  h.sublist List.filter_sublist

/-- Weaving what is not below a key is weaving all and leaving out what is. -/
theorem mem_weave_notBelow {ds fs : List Record} (hds : L.Ordered n ds) (hfs : L.Ordered n fs)
    (r : Record) : r ∈ weave L n (Cursor.notBelow L n key ds) (Cursor.notBelow L n key fs) ↔
      r ∈ weave L n ds fs ∧ key ≤ L.load r n := by
  rw [mem_weave (Cursor.notBelow_ordered hds) (Cursor.notBelow_ordered hfs), mem_weave hds hfs]
  simp only [Cursor.notBelow, List.mem_filter, decide_eq_true_eq]
  constructor
  · rintro (⟨hr, hle⟩ | ⟨⟨hr, hle⟩, hno⟩)
    · exact ⟨Or.inl hr, hle⟩
    · refine ⟨Or.inr ⟨hr, ?_⟩, hle⟩
      intro y hy hsame
      exact hno y ⟨hy, hsame ▸ hle⟩ hsame
  · rintro ⟨hr | ⟨hr, hno⟩, hle⟩
    · exact Or.inl ⟨hr, hle⟩
    · exact Or.inr ⟨⟨hr, hle⟩, fun y hy => hno y hy.1⟩

namespace Index

/-! ## What lookups find -/

/-- Looking up the wanted keys of the index, in their order, finds the records. -/
def Finds (x : Index) (wanted : Key → Prop) (records : List Record) : Prop :=
  ∃ keys : List Key, keys.Pairwise (· < ·) ∧
    (∀ k, k ∈ keys ↔ k.length = x.config.keyLength ∧ wanted k ∧ (x.get k).isSome) ∧
      keys.map x.get = records.map some

variable {c : Config} {x : Index} {s : Layers}

/-- What both layers hold, the dynamic layer in front. -/
theorem Refines.lookup_eq (h : x.Refines c L s) (hk : key.length = c.keyLength) :
    x.get key = (s.dynamic ∪ s.frozen).lookup key := by
  rw [h.get_eq hk, Layers.get, Contents.lookup_union]

theorem Refines.finds (h : x.Refines c L s) {all rs : List Record} {wanted : Key → Prop}
    (hall : Holds L c.keyLength all (s.dynamic ∪ s.frozen)) (hrs : L.Ordered c.keyLength rs)
    (hmem : ∀ r, r ∈ rs ↔ r ∈ all ∧ wanted (L.load r c.keyLength)) : x.Finds wanted rs := by
  have hget : ∀ r ∈ rs, x.get (L.load r c.keyLength) = some r := by
    intro r hr
    rw [h.lookup_eq (L.length_load r _), hall]
    exact ⟨((hmem r).mp hr).1, rfl⟩
  refine ⟨rs.map fun r => L.load r c.keyLength, List.pairwise_map.mpr hrs, ?_, ?_⟩
  · intro k
    rw [h.config_eq, List.mem_map]
    constructor
    · rintro ⟨r, hr, rfl⟩
      refine ⟨L.length_load r _, ((hmem r).mp hr).2, ?_⟩
      rw [hget r hr]
      rfl
    · rintro ⟨hk, hwanted, hsome⟩
      obtain ⟨r, hr⟩ := Option.isSome_iff_exists.mp hsome
      rw [h.lookup_eq hk, hall] at hr
      obtain ⟨hr, rfl⟩ := hr
      exact ⟨r, (hmem r).mpr ⟨hr, hwanted⟩, rfl⟩
  · rw [List.map_map]
    exact List.map_congr_left hget

/-! ## Scans of an index -/

namespace Refines

theorem holds_weave (h : x.Refines c L s) : Holds L c.keyLength
    (weave L c.keyLength x.dynamic.root.records x.frozen.root.records)
      (s.dynamic ∪ s.frozen) :=
  h.dynamic.holds.union h.frozen.holds (mem_weave h.dynamic.ordered h.frozen.ordered)

theorem lowerBound_ok (h : x.Refines c L s) (hk : key.length = c.keyLength) :
    ∃ scan rs, x.lowerBound key = .ok scan ∧ scan.Yields L c.keyLength rs ∧
      x.Finds (key ≤ ·) rs := by
  obtain ⟨dynamic, hdynamic, hds⟩ := Cursor.lowerBound_ok h.dynamic.rooted hk
  obtain ⟨frozen, hfrozen, hfs⟩ := Cursor.lowerBound_ok h.frozen.rooted hk
  refine ⟨⟨dynamic, frozen, x.loader, x.config.keyLength⟩, _, ?_,
    ⟨h.loader_eq, congrArg Config.keyLength h.config_eq, _, _, hds, hfs, rfl⟩, ?_⟩
  · rw [Index.lowerBound, DynamicTree.lowerBound, StaticTree.lowerBound, h.loader_eq, hdynamic,
      ok_bind, hfrozen]
    rfl
  · refine h.finds h.holds_weave ?_ (mem_weave_notBelow h.dynamic.ordered h.frozen.ordered)
    exact weave_ordered (Cursor.notBelow_ordered h.dynamic.ordered)
      (Cursor.notBelow_ordered h.frozen.ordered)

theorem iter_ok (h : x.Refines c L s) :
    ∃ rs, x.iter.Yields L c.keyLength rs ∧ x.Finds (fun _ => True) rs := by
  refine ⟨_, ⟨h.loader_eq, congrArg Config.keyLength h.config_eq, _, _,
    Cursor.first_shows h.dynamic.rooted, Cursor.first_shows h.frozen.rooted, rfl⟩, ?_⟩
  refine h.finds h.holds_weave (weave_ordered h.dynamic.ordered h.frozen.ordered) ?_
  intro r
  rw [and_true]

end Refines

/-- The indexes that operations make, from the empty one on. -/
inductive Reachable (c : Config) (L : Loader) : Index → Prop
  | empty {x : Index} : withConfig c L = .ok x → Reachable c L x
  | perform {x x' : Index} {o : Operation} {answer : Answer} : Reachable c L x →
      o.Proper L c.keyLength → x.perform o = .ok (answer, x') → Reachable c L x'

theorem Reachable.refines (h : x.Reachable c L) : ∃ s, x.Refines c L s := by
  induction h with
  | empty heq =>
      obtain ⟨-, rfl⟩ := eq_new_of_withConfig heq
      exact ⟨.empty, refines_new c L⟩
  | @perform x x' o answer _ ho heq ih =>
      obtain ⟨s, hs⟩ := ih
      obtain ⟨x'', heq', h'⟩ := perform_simulates c L x s o hs ho
      obtain ⟨-, rfl⟩ := Prod.mk.inj (Except.ok.inj (heq.symm.trans heq'))
      exact ⟨_, h'⟩

/-- Any sequence of proper operations leads from the empty index to one that there can be. -/
theorem exists_reachable (hc : c.validate = .ok ()) (L : Loader) (ops : List Operation)
    (hops : ∀ o ∈ ops, o.Proper L c.keyLength) :
    ∃ x, (new c L).performAll ops = .ok x ∧ x.Reachable c L := by
  have hrun : ∀ y : Index, y.Reachable c L → ∃ x, y.performAll ops = .ok x ∧ x.Reachable c L := by
    induction ops with
    | nil => exact fun y hy => ⟨y, rfl, hy⟩
    | cons o ops ih =>
        intro y hy
        have ho := hops o List.mem_cons_self
        obtain ⟨s, hs⟩ := hy.refines
        obtain ⟨z, hperform, -⟩ := perform_simulates c L y s o hs ho
        obtain ⟨x, hall, hx⟩ := ih (fun o' ho' => hops o' (List.mem_cons_of_mem _ ho')) z
          (.perform hy ho hperform)
        refine ⟨x, ?_, hx⟩
        rw [performAll, hperform, ok_bind]
        exact hall
  exact hrun (new c L) (.empty (withConfig_eq hc L))

/-- In an index that there can be, a scan from a key on gives the records that lookups
find under the keys from there on, and the scan over all records those under all keys:
each once, in the order of the keys, and then nothing for ever. -/
theorem scan_agrees (h : x.Reachable c L) :
    (∀ key : Key, key.length = c.keyLength →
      ∃ scan rs, x.lowerBound key = .ok scan ∧ x.Finds (key ≤ ·) rs ∧
        (∀ i, (scan.after i).next.1 = rs[i]?) ∧ ∀ m, x.scan key m = .ok (rs.take m)) ∧
    ∃ rs, x.Finds (fun _ => True) rs ∧ (∀ i, (x.iter.after i).next.1 = rs[i]?) ∧
      x.toList = rs := by
  obtain ⟨s, hs⟩ := h.refines
  constructor
  · intro key hk
    obtain ⟨scan, rs, heq, hyields, hfinds⟩ := hs.lowerBound_ok hk
    refine ⟨scan, rs, heq, hfinds, Scan.next_after hyields, ?_⟩
    intro m
    rw [Index.scan, heq, ok_bind, Scan.take_eq hyields]
    rfl
  · obtain ⟨rs, hyields, hfinds⟩ := hs.iter_ok
    exact ⟨rs, hfinds, Scan.next_after hyields, Scan.rest_eq hyields⟩

/-- Both trees branch twice and hold one key in common, and what comes before it and what comes
after it is in both of them. -/
theorem scan_agrees_of_interleaved :
    let c : Config := { keyLength := 2 }
    let L := Loader.modulo 65536
    let ops : List Operation := [.insert [0, 1] 1, .insert [0, 4] 4, .insert [1, 0] 256,
      .insert [1, 5] 261, .merge, .insert [0, 2] 2, .insert [0, 4] 65540, .insert [1, 3] 259,
      .insert [1, 7] 263]
    ∃ x, (new c L).performAll ops = .ok x ∧
      x.dynamic.root.records = [2, 65540, 259, 263] ∧ x.frozen.root.records = [1, 4, 256, 261] ∧
      x.toList = [1, 2, 65540, 256, 259, 261, 263] ∧
      (∀ key : Key, key.length = 2 →
        ∃ scan rs, x.lowerBound key = .ok scan ∧ x.Finds (key ≤ ·) rs ∧
          (∀ i, (scan.after i).next.1 = rs[i]?) ∧ ∀ m, x.scan key m = .ok (rs.take m)) ∧
      ∃ rs, x.Finds (fun _ => True) rs ∧ (∀ i, (x.iter.after i).next.1 = rs[i]?) ∧
        x.toList = rs := by
  intro c L ops
  obtain ⟨x, hrun, hx⟩ := exists_reachable (c := c) rfl L ops (by decide)
  have hlists : ((new c L).performAll ops).map
      (fun x => (x.dynamic.root.records, x.frozen.root.records, x.toList)) =
        .ok ([2, 65540, 259, 263], [1, 4, 256, 261], [1, 2, 65540, 256, 259, 261, 263]) := by
    decide +kernel
  rw [hrun] at hlists
  obtain ⟨hdynamic, hlists⟩ := Prod.mk.inj (Except.ok.inj hlists)
  obtain ⟨hfrozen, hlist⟩ := Prod.mk.inj hlists
  exact ⟨x, hrun, hdynamic, hfrozen, hlist, scan_agrees hx⟩

end Index

end RadixIndex
