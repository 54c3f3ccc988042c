/-
# Counts add up

Counts of nodes are added field by field.  A tree's counts are those of its root
and of its children, `recount_node`, and with counts written as sums taking a node
away undoes adding it, `free_one_add`: the counter of a node that is in the sum
is not zero.  So an operation on a part of a tree is told the counts of the part
plus any others, and leaves the others as they are.
-/
import RadixIndex.Dynamic.Stats
import RadixIndex.Proofs.Answers
import RadixIndex.Proofs.Records
import Mathlib.Algebra.BigOperators.Group.List.Basic
import Mathlib.Algebra.GroupWithZero.Nat

namespace RadixIndex.Dynamic

namespace Stats

instance : Zero Stats := ⟨{}⟩

instance : Add Stats := ⟨fun s t =>
  ⟨s.four + t.four, s.sixteen + t.sixteen, s.fortyEight + t.fortyEight, s.full + t.full,
    s.memory + t.memory⟩⟩

@[ext]
theorem ext {s t : Stats} (h : ∀ size, s.ofSize size = t.ofSize size)
    (hm : s.memory = t.memory) : s = t := by
  have h4 : s.four = t.four := h .four
  have h16 : s.sixteen = t.sixteen := h .sixteen
  have h48 : s.fortyEight = t.fortyEight := h .fortyEight
  have h256 : s.full = t.full := h .full
  cases s
  cases t
  simp_all

@[simp]
theorem ofSize_zero (size : Size) : (0 : Stats).ofSize size = 0 := by cases size <;> rfl

@[simp]
theorem memory_zero : (0 : Stats).memory = 0 := rfl

@[simp]
theorem ofSize_add (s t : Stats) (size : Size) :
    (s + t).ofSize size = s.ofSize size + t.ofSize size := by cases size <;> rfl

@[simp]
theorem memory_add (s t : Stats) : (s + t).memory = s.memory + t.memory := rfl

instance : AddCommMonoid Stats where
  add_assoc s t u := by ext <;> simp [Nat.add_assoc]
  zero_add s := by ext <;> simp
  add_zero s := by ext <;> simp
  add_comm s t := by ext <;> simp [Nat.add_comm]
  nsmul := nsmulRec

/-- The counts of a single node. -/
def one (size : Size) : Stats := alloc 0 size

theorem ofSize_set (s : Stats) (size size' : Size) (k m : Nat) :
    ofSize { s.setSize size k with memory := m } size' =
      if size' = size then k else s.ofSize size' := by
  cases size <;> cases size' <;> rfl

theorem ofSize_one (size size' : Size) :
    (one size).ofSize size' = if size' = size then 1 else 0 := by
  rw [one, alloc, ofSize_set, ofSize_zero, ofSize_zero]

@[simp]
theorem memory_one (size : Size) : (one size).memory = size.footprint := Nat.zero_add _

theorem alloc_eq (s : Stats) (size : Size) : s.alloc size = one size + s := by
  ext size'
  · rw [alloc, ofSize_set, ofSize_add, ofSize_one]
    split
    · rename_i h
      rw [h, Nat.add_comm]
    · rw [Nat.zero_add]
  · exact (Nat.add_comm _ _).trans (by rw [memory_add, memory_one])

/-- A node that has been counted can be taken away. -/
theorem free_one_add (size : Size) (s : Stats) : (one size + s).free size = .ok s := by
  have hcount : (one size + s).ofSize size = 1 + s.ofSize size := by
    rw [ofSize_add, ofSize_one, if_pos rfl]
  have hmemory : (one size + s).memory = size.footprint + s.memory := by
    rw [memory_add, memory_one]
  rw [free, if_neg (by omega), hcount, hmemory]
  congr 1
  ext size'
  · rw [ofSize_set, ofSize_add, ofSize_one]
    split
    · rename_i h
      rw [h, Nat.add_sub_cancel_left]
    · rw [Nat.zero_add]
  · exact Nat.add_sub_cancel_left _ _

theorem replace_one_add (source target : Size) (s : Stats) :
    (one source + s).replace source target = .ok (one target + s) := by
  rw [replace, free_one_add, ok_bind, pure_eq_ok, alloc_eq]

/-- Further nodes that have been counted stay counted. -/
theorem free_add {s s' : Stats} {size : Size} (h : s.free size = .ok s') (others : Stats) :
    (s + others).free size = .ok (s' + others) := by
  rw [free] at h ⊢
  split at h
  · exact absurd h nofun
  · rename_i hcounted
    rw [← Except.ok.inj h, if_neg (by simp; omega)]
    congr 1
    ext size'
    · simp only [ofSize_set, ofSize_add]
      split
      · rename_i hsize
        subst hsize
        omega
      · rfl
    · simp
      omega

theorem replace_add {s s' : Stats} {source target : Size}
    (h : s.replace source target = .ok s') (others : Stats) :
    (s + others).replace source target = .ok (s' + others) := by
  obtain ⟨less, hfree, hs⟩ := bind_eq_ok.mp h
  rw [← Except.ok.inj hs, replace, free_add hfree, ok_bind, pure_eq_ok, alloc_eq, alloc_eq,
    add_assoc]

end Stats

namespace Tree

theorem foldl_alloc (ns : List Node) (s : Stats) :
    ns.foldl (fun s n => s.alloc n.header.layout.size) s =
      (ns.map fun n => Stats.one n.header.layout.size).sum + s := by
  induction ns generalizing s with
  | nil => simp
  | cons n ns ih =>
      rw [List.foldl_cons, ih, Stats.alloc_eq, List.map_cons, List.sum_cons, ← add_assoc,
        add_comm (Stats.one _) (List.sum _)]

theorem recount_eq (t : Tree) :
    t.recount = (t.nodes.map fun n => Stats.one n.header.layout.size).sum := by
  rw [recount, foldl_alloc]
  exact add_zero _

@[simp]
theorem recount_leaf (r : Record) : recount (.leaf r) = 0 := rfl

theorem recount_node (h : Header) (c : Fin (NodeHeader.width h) → Tree) :
    recount (.node h c) = Stats.one h.layout.size +
      ((RadixIndex.Node.mk h c).children.map fun e => recount e.2).sum := by
  rw [recount_eq, RadixIndex.Tree.nodes_node, List.map_cons, List.sum_cons, List.map_flatMap]
  congr 1
  induction (RadixIndex.Node.mk h c).children with
  | nil => rfl
  | cons e l ih =>
      rw [List.flatMap_cons, List.sum_append, ih, List.map_cons, List.sum_cons, recount_eq]

end Tree

end RadixIndex.Dynamic
