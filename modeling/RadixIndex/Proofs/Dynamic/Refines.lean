/-
# Dynamic trees are finite maps

A dynamic tree that holds a finite map goes on holding what the same writes make of
the map (`write_simulates`), so from the empty tree on, over any sequence of
writes, every answer is that of the map, every key is found with the record that
the map has under it, and the size is the number of keys (`run_writes`).

All that the proof keeps from one write to the next is in `Refines`: the tree is
empty or firm, and its counters are right.
-/
import RadixIndex.Dynamic.Basic
import RadixIndex.Proofs.Contents
import RadixIndex.Proofs.Runs
import RadixIndex.Proofs.Dynamic.Lookup
import RadixIndex.Proofs.Dynamic.Insert
import RadixIndex.Proofs.Dynamic.Erase

open RadixIndex.Dynamic

namespace RadixIndex.DynamicTree

/-! ## Writes -/

/-- A write to a dynamic tree. -/
inductive Write where
  | insert (key : Key) (record : Record)
  | update (key : Key) (record : Record)
  | upsert (key : Key) (record : Record)
  | erase (key : Key)

/-- The write is about a key of `n` bytes, which is the key of the record written. -/
def Write.Proper (L : Loader) (n : Nat) : Write → Prop
  | .insert key record | .update key record | .upsert key record =>
      key.length = n ∧ L.load record n = key
  | .erase key => key.length = n

instance (L : Loader) (n : Nat) (w : Write) : Decidable (w.Proper L n) :=
  match w with
  | .insert key record | .update key record | .upsert key record =>
      inferInstanceAs (Decidable (key.length = n ∧ L.load record n = key))
  | .erase key => inferInstanceAs (Decidable (key.length = n))

/-- A write done to a tree; putting a record in any case has no answer. -/
def write (L : Loader) (t : DynamicTree) : Write → Except Fault (Option Bool × DynamicTree)
  | .insert key record => do
      let (inserted, t) ← t.insert L key record
      return (some inserted, t)
  | .update key record =>
      let (updated, t) := t.update L key record
      .ok (some updated, t)
  | .upsert key record => do
      return (none, ← t.upsert L key record)
  | .erase key => do
      let (erased, t) ← t.erase L key
      return (some erased, t)

/-- A write done to a finite map. -/
def Write.onContents (m : Contents) : Write → Option Bool × Contents
  | .insert key record =>
      (some (decide (key ∉ m)), if key ∈ m then m else m.insert key record)
  | .update key record =>
      (some (decide (key ∈ m)), if key ∈ m then m.insert key record else m)
  | .upsert key record => (none, m.insert key record)
  | .erase key => (some (decide (key ∈ m)), m.erase key)

/-! ## The tree and the map -/

/-- The tree, for keys of `n` bytes, is well-formed and holds the map. -/
structure Refines (L : Loader) (n : Nat) (t : DynamicTree) (m : Contents) : Prop where
  keyLength_eq : t.keyLength = n
  root : t.root = .empty ∨ t.root.Firm L n []
  stats_eq : t.stats = t.root.recount
  size_eq : t.size = t.root.records.length
  holds : Holds L n t.root.records m

theorem refines_empty (L : Loader) (n : Nat) : (empty n).Refines L n ∅ :=
  ⟨rfl, Or.inl rfl, rfl, rfl, Holds.empty L n⟩

namespace Refines

variable {L : Loader} {n : Nat} {t : DynamicTree} {m : Contents} {key : Key} {r : Record}

theorem fits (h : t.Refines L n m) : t.root = .empty ∨ t.root.Fits L n [] :=
  h.root.imp_right Tree.Firm.fits

theorem rooted (h : t.Refines L n m) : t.root = .empty ∨ t.root.Rooted L n [] :=
  RadixIndex.Tree.rooted_of_root h.fits

theorem ordered (h : t.Refines L n m) : L.Ordered n t.root.records :=
  RadixIndex.Tree.ordered_of_root h.rooted

theorem get_eq (h : t.Refines L n m) (hk : key.length = n) : t.get L key = m.lookup key := by
  refine Option.ext ?_
  intro r
  rw [h.holds key r, get]
  rcases h.fits with hroot | hroot
  · rw [hroot]
    exact ⟨nofun, fun hr => absurd hr.1 List.not_mem_nil⟩
  · exact Tree.getFrom_eq_some hroot hk fun _ => List.nil_prefix

theorem card_eq (h : t.Refines L n m) : t.size = m.keys.card :=
  h.size_eq.trans (h.holds.card_keys h.ordered).symm

/-! ## Single writes -/

theorem inserts (h : t.Refines L n m) (hk : key.length = n) (hr : L.load r n = key) :
    Tree.Inserts L n key r [] t.root 0 := by
  rcases h.root with hroot | hroot
  · rw [hroot]
    refine Or.inr ⟨fun _ hx => absurd hx List.not_mem_nil, .leaf r, ⟨?_, ?_⟩, rfl⟩
    · exact Tree.firm_leaf List.nil_prefix
    · intro x
      simp
  · exact Tree.insertFrom_ok hr hroot hk List.nil_prefix 0

theorem insert_ok (h : t.Refines L n m) (hk : key.length = n) (hr : L.load r n = key) :
    ∃ t', t.insert L key r = .ok (decide (key ∉ m), t') ∧
      t'.Refines L n (if key ∈ m then m else m.insert key r) := by
  have hlen : ¬ key.length ≠ t.keyLength := fun hne => hne (hk.trans h.keyLength_eq.symm)
  rw [DynamicTree.insert, if_neg hlen, h.stats_eq, ← add_zero t.root.recount]
  dsimp only
  rcases h.inserts hk hr with ⟨⟨x, hx, hload⟩, heq⟩ | ⟨hno, root, hinserted, heq⟩
  · have hmem : key ∈ m := h.holds.mem_iff.mpr ⟨x, hx, hload⟩
    refine ⟨t, ?_, by rwa [if_pos hmem]⟩
    rw [show Tree.insertFrom L key r t.root 0 _ = _ from heq, decide_eq_false fun h => h hmem]
    rfl
  · have hmem : key ∉ m := h.holds.not_mem_iff.mpr hno
    have hperm := h.ordered.perm_cons hinserted.firm.fits.rooted.records_ordered
      (fun hx => hno r hx hr) hinserted.mem
    refine ⟨{ t with root, stats := root.recount + 0, size := t.size + 1 }, ?_, ?_⟩
    · rw [show Tree.insertFrom L key r t.root 0 _ = _ from heq, decide_eq_true hmem]
      rfl
    · rw [if_neg hmem, ← hr]
      refine ⟨h.keyLength_eq, Or.inr hinserted.firm, add_zero _, ?_, h.holds.insert ?_⟩
      · show t.size + 1 = root.records.length
        rw [h.size_eq, hperm.length_eq, List.length_cons]
      · intro x
        rw [hinserted.mem]
        refine or_congr_right (iff_self_and.mpr ?_)
        intro hx he
        exact hno x hx (he.trans hr)

theorem update_ok (h : t.Refines L n m) (hk : key.length = n) (hr : L.load r n = key) :
    ∃ t', t.update L key r = (decide (key ∈ m), t') ∧
      t'.Refines L n (if key ∈ m then m.insert key r else m) := by
  have hsome : (t.root.updateFrom L key r 0 false).isSome = (m.lookup key).isSome := by
    rw [Tree.isSome_updateFrom, ← h.get_eq hk]
    rfl
  rw [DynamicTree.update]
  cases hu : t.root.updateFrom L key r 0 false with
  | none =>
      rw [hu, Option.isSome_none, eq_comm, ← Bool.not_eq_true, Finmap.lookup_isSome] at hsome
      exact ⟨t, by rw [decide_eq_false hsome], by rwa [if_neg hsome]⟩
  | some root =>
      rw [hu, Option.isSome_some, eq_comm, Finmap.lookup_isSome] at hsome
      refine ⟨{ t with root }, by rw [decide_eq_true hsome], ?_⟩
      rw [if_pos hsome, ← hr]
      have hroot : t.root.Firm L n [] := by
        refine h.root.resolve_left ?_
        intro hempty
        rw [hempty] at hu
        exact absurd hu nofun
      have hupdated := Tree.updateFrom_some hr hroot hk (fun _ => List.nil_prefix) hu
      have hholds := h.holds.insert hupdated.mem
      have hkeys : (m.insert (L.load r n) r).keys = m.keys := by
        ext k
        rw [Finmap.mem_keys, Finmap.mem_keys, Finmap.mem_insert, hr]
        exact or_iff_right_of_imp fun hk => hk ▸ hsome
      refine ⟨h.keyLength_eq, Or.inr hupdated.firm, ?_, ?_, hholds⟩
      · exact h.stats_eq.trans hupdated.recount_eq.symm
      · show t.size = root.records.length
        rw [← hholds.card_keys hupdated.firm.fits.rooted.records_ordered, hkeys]
        exact h.card_eq

theorem upsert_ok (h : t.Refines L n m) (hk : key.length = n) (hr : L.load r n = key) :
    ∃ t', t.upsert L key r = .ok t' ∧ t'.Refines L n (m.insert key r) := by
  obtain ⟨t', hupdate, hupdated⟩ := h.update_ok hk hr
  rw [DynamicTree.upsert, hupdate]
  by_cases hmem : key ∈ m
  · rw [if_pos hmem] at hupdated
    rw [decide_eq_true hmem]
    exact ⟨t', rfl, hupdated⟩
  · rw [if_neg hmem] at hupdated
    obtain ⟨t'', hinsert, hinserted⟩ := hupdated.insert_ok hk hr
    rw [if_neg hmem] at hinserted
    rw [decide_eq_false hmem]
    refine ⟨t'', ?_, hinserted⟩
    dsimp only
    rw [hinsert]
    rfl

theorem erases (h : t.Refines L n m) (hk : key.length = n) :
    Tree.Erases L n key [] t.root 0 := by
  rcases h.root with hroot | hroot
  · rw [hroot]
    exact Or.inl ⟨fun _ hx => absurd hx List.not_mem_nil, rfl⟩
  · exact Tree.eraseFrom_ok hroot hk List.nil_prefix 0

theorem erase_ok (h : t.Refines L n m) (hk : key.length = n) :
    ∃ t', t.erase L key = .ok (decide (key ∈ m), t') ∧ t'.Refines L n (m.erase key) := by
  have hlen : ¬ key.length ≠ t.keyLength := fun hne => hne (hk.trans h.keyLength_eq.symm)
  rw [DynamicTree.erase, if_neg hlen, h.stats_eq, ← add_zero t.root.recount]
  dsimp only
  rcases h.erases hk with ⟨hno, heq⟩ | ⟨⟨x, hx, hload⟩, root, heq, hroot, hrest⟩
  · have hmem : key ∉ m := h.holds.not_mem_iff.mpr hno
    have hsame : m.erase key = m := Finmap.ext_lookup fun k => by
      by_cases hk : k = key
      · rw [hk, Finmap.lookup_erase, eq_comm, Finmap.lookup_eq_none]
        exact hmem
      · rw [Finmap.lookup_erase_ne hk]
    refine ⟨t, ?_, by rwa [hsame]⟩
    rw [show Tree.eraseFrom L key t.root 0 _ = _ from heq, decide_eq_false hmem]
    rfl
  · have hmem : key ∈ m := h.holds.mem_iff.mpr ⟨x, hx, hload⟩
    have hroot : root = .empty ∨ root.Firm L n [] := hroot.imp And.right id
    have hordered : L.Ordered n root.records :=
      RadixIndex.Tree.ordered_of_root (hroot.imp_right fun h => h.fits.rooted)
    have hlength := (h.ordered.perm_erase hordered hx (hload.symm ▸ hrest)).length_eq
    rw [← h.size_eq, List.length_cons] at hlength
    have hsize : ¬ t.size = 0 := by omega
    refine ⟨{ t with root, stats := root.recount + 0, size := t.size - 1 }, ?_,
      h.keyLength_eq, hroot, add_zero _, ?_, h.holds.erase hrest⟩
    · rw [show Tree.eraseFrom L key t.root 0 _ = _ from heq, decide_eq_true hmem, ok_bind]
      dsimp only
      rw [if_neg hsize]
      rfl
    · show t.size - 1 = root.records.length
      omega

end Refines

/-! ## Runs of writes -/

theorem write_simulates (L : Loader) (n : Nat) :
    StepSimulates (Refines L n) (write L) Write.onContents (Write.Proper L n) := by
  intro t m w h hw
  cases w with
  | insert key r =>
      obtain ⟨t', heq, h'⟩ := h.insert_ok hw.1 hw.2
      exact ⟨t', by rw [write, heq]; rfl, h'⟩
  | update key r =>
      obtain ⟨t', heq, h'⟩ := h.update_ok hw.1 hw.2
      exact ⟨t', by rw [write, heq]; rfl, h'⟩
  | upsert key r =>
      obtain ⟨t', heq, h'⟩ := h.upsert_ok hw.1 hw.2
      exact ⟨t', by rw [write, heq]; rfl, h'⟩
  | erase key =>
      obtain ⟨t', heq, h'⟩ := h.erase_ok hw
      exact ⟨t', by rw [write, heq]; rfl, h'⟩

/-- The trees that writes make, from the empty one on. -/
inductive Reachable (L : Loader) (n : Nat) : DynamicTree → Prop
  | empty : Reachable L n (.empty n)
  | write {t t' : DynamicTree} {w : Write} {answer : Option Bool} : Reachable L n t →
      w.Proper L n → write L t w = .ok (answer, t') → Reachable L n t'

theorem Reachable.refines {L : Loader} {n : Nat} {t : DynamicTree} (h : t.Reachable L n) :
    ∃ m, t.Refines L n m := by
  induction h with
  | empty => exact ⟨∅, refines_empty L n⟩
  | @write t t' w answer _ hw heq ih =>
      obtain ⟨m, hm⟩ := ih
      obtain ⟨t'', heq', h'⟩ := write_simulates L n t m w hm hw
      obtain ⟨-, rfl⟩ := Prod.mk.inj (Except.ok.inj (heq.symm.trans heq'))
      exact ⟨_, h'⟩

/-- Writes done to a tree one after the other, up to the first that stops with a fault. -/
def writeAll (L : Loader) (t : DynamicTree) : List Write → Except Fault DynamicTree
  | [] => .ok t
  | w :: writes => do
      let (_, t) ← t.write L w
      writeAll L t writes

/-- Any sequence of proper writes leads from the empty tree to one that there can be. -/
theorem exists_reachable (L : Loader) (n : Nat) (writes : List Write)
    (hw : ∀ w ∈ writes, w.Proper L n) :
    ∃ t, writeAll L (empty n) writes = .ok t ∧ t.Reachable L n := by
  have hrun : ∀ t : DynamicTree, t.Reachable L n →
      ∃ t', writeAll L t writes = .ok t' ∧ t'.Reachable L n := by
    induction writes with
    | nil => exact fun t ht => ⟨t, rfl, ht⟩
    | cons w writes ih =>
        intro t ht
        have hproper := hw w List.mem_cons_self
        obtain ⟨m, hm⟩ := ht.refines
        obtain ⟨next, hwrite, -⟩ := write_simulates L n t m w hm hproper
        obtain ⟨t', hall, ht'⟩ := ih (fun w' hw' => hw w' (List.mem_cons_of_mem _ hw')) next
          (.write ht hproper hwrite)
        refine ⟨t', ?_, ht'⟩
        rw [writeAll, hwrite, ok_bind]
        exact hall
  exact hrun (empty n) .empty

/-- From the empty tree on, any sequence of writes answers as a finite map does, and
after every write the tree finds under every key what the map has there, and has
the size of the map. -/
theorem run_writes (L : Loader) (n : Nat) (writes : List Write)
    (hw : ∀ w ∈ writes, w.Proper L n) :
    ∃ states, run (write L) (empty n) writes = .ok states ∧
      List.Forall₂ (fun (x : Option Bool × DynamicTree) (y : Option Bool × Contents) =>
          x.1 = y.1 ∧ (∀ key : Key, key.length = n → x.2.get L key = y.2.lookup key) ∧
            x.2.size = y.2.keys.card)
        states (history Write.onContents ∅ writes) := by
  obtain ⟨states, hrun, hall⟩ := run_simulates (write_simulates L n) (refines_empty L n) hw
  refine ⟨states, hrun, hall.imp ?_⟩
  rintro ⟨answer, t⟩ ⟨answer', m⟩ ⟨heq, h⟩
  exact ⟨heq, fun key hk => h.get_eq hk, h.card_eq⟩

/-- Writes that split stems, replace records and fold nodes again. -/
theorem run_writes_of_two_bytes :
    let L := Loader.modulo 65536
    let writes : List Write :=
      [.insert [0, 1] 1, .insert [0, 2] 2, .insert [1, 0] 256, .insert [0, 1] 65537,
        .update [0, 1] 65537, .upsert [0, 2] 65538, .erase [0, 2], .erase [0, 2]]
    ∃ states, run (write L) (empty 2) writes = .ok states ∧
      List.Forall₂ (fun (x : Option Bool × DynamicTree) (y : Option Bool × Contents) =>
          x.1 = y.1 ∧ (∀ key : Key, key.length = 2 → x.2.get L key = y.2.lookup key) ∧
            x.2.size = y.2.keys.card)
        states (history Write.onContents ∅ writes) :=
  run_writes (.modulo 65536) 2 _ (by decide)

end RadixIndex.DynamicTree
