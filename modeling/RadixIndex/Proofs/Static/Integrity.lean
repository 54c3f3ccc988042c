/-
# Formed trees have no issues

The verifier finds nothing wrong with a tree that is formed of packed nodes: a
packed node is not loose and has no empty stem where its shape asks for one, a
sound node counts its children and lists them in order, and in a tree that fits
its place the key of every leaf begins with what leads there.
-/
import RadixIndex.Proofs.Static.Refines
import RadixIndex.Static.Integrity

namespace RadixIndex.Static

variable {L : Loader} {n : Nat} {path : Key}

theorem Loose.lacksStem_pack (l : Loose) (p : ShapePolicy) :
    (l.pack p).header.lacksStem = false := by
  rw [pack]
  split
  · split
    · rw [RadixIndex.Node.build_eq]
      rfl
    · rename_i hstem
      rw [RadixIndex.Node.build_eq]
      exact Bool.not_eq_true _ ▸ hstem
  · split
    · rw [RadixIndex.Node.build_eq]
      rfl
    · rename_i hstem
      rw [RadixIndex.Node.build_eq]
      exact Bool.not_eq_true _ ▸ hstem

theorem Node.issues_eq_nil {nd : Node} (hpacked : Node.IsPacked nd) (hnd : nd.Sound) :
    Node.issues nd = [] := by
  have hloose : nd.header.isLoose = false := by
    obtain ⟨l, p, rfl⟩ := hpacked
    exact l.isLoose_pack p
  have hstem : nd.header.lacksStem = false := by
    obtain ⟨l, p, rfl⟩ := hpacked
    exact l.lacksStem_pack p
  have hcount : (nd.slots.map Prod.fst).length = nd.header.count := by
    rw [List.length_map]
    exact hnd.count.symm
  have hfilled : (RadixIndex.Node.children nd).any (fun e => e.2.isEmpty) = false := by
    refine List.any_eq_false.mpr ?_
    intro e he
    rw [RadixIndex.Node.isEmpty_eq_true]
    exact hnd.child_ne_empty he
  rw [Node.issues]
  simp [hloose, hstem, hcount, hfilled, ascending_map_fst.mpr hnd.ordered]

/-- No key is out of place in a tree that fits its place. -/
theorem Tree.keyIssues_eq_nil {t : Tree} (ht : t.Fits L n path) : t.keyIssues L n path = [] := by
  induction ht with
  | leaf hp => exact if_pos (List.isPrefixOf_iff_prefix.mpr hp)
  | @node path stem h c hsound hspells _ hbelow ih =>
      obtain rfl : h.stem = stem := Node.spells_iff.mp hspells
      rw [keyIssues, List.flatMap_eq_nil_iff]
      intro s hs
      exact ih (s.1, c s.2) (List.mem_map_of_mem hs)

end RadixIndex.Static

open RadixIndex.Static

namespace RadixIndex.StaticTree.Refines

variable {L : Loader} {n : Nat} {t : StaticTree} {m : Contents}

theorem verify_eq_nil (h : t.Refines L n m) : t.verify = [] := by
  have hnodes : t.root.nodes.flatMap Node.issues = [] := by
    refine List.flatMap_eq_nil_iff.mpr ?_
    intro nd hnd
    rcases h.root with hroot | hroot
    · rw [hroot] at hnd
      exact absurd hnd List.not_mem_nil
    · exact Node.issues_eq_nil (hroot.each nd hnd) (hroot.fits.rooted.each_sound nd hnd)
  rw [verify]
  simp [h.leafCount_eq, hnodes]

/-- The verifier, which writes keys down, has room for them and finds no issue. -/
theorem verifyWith_eq (h : t.Refines L n m) (hn : n ≤ Key.maxLength) :
    t.verifyWith L = .ok [] := by
  have hkeys : t.root.keyIssues L n [] = [] := by
    rcases h.fits with hroot | hroot
    · rw [hroot]
      rfl
    · exact Tree.keyIssues_eq_nil hroot
  rw [verifyWith, h.keyLength_eq, if_pos hn, h.verify_eq_nil, hkeys]
  rfl

end RadixIndex.StaticTree.Refines
