/-
# Merging two trees

Two trees that are ready in the same place are merged without a fault, and what
comes out is merged in the sense of `Merged` (`merge_ok`).  The recursion goes down
three ways, and each is a case of the lemmas about nodes of merged parts:

    fork            two stems part, or the keys of two leaves do
    join            the children of two nodes with the same stem
    join with one   the children of a node, and a node with a longer stem, or a leaf,
                    as the only child on the other side

The equations for the third way say that a tree under one byte is lined up with the
children of the other node like a list of children of its own.
-/
import RadixIndex.Proofs.Static.Merged

namespace RadixIndex.Static

variable {Q : Node → Prop} {m : Merger} {path stem : Key}

/-! ## Leaves -/

/-- Two leaves: one of them if they have the same key, a fork otherwise. -/
theorem mergeLeaves_ok (hQ : Suits Q m.policy) {r s : Record}
    (hr : path <+: m.loader.load r m.keyLength) (hs : path <+: m.loader.load s m.keyLength) :
    ∃ t common, m.mergeLeaves r s path.length = .ok (t, common) ∧
      Merged Q m path [r] [s] t common := by
  have hle := hr.length_le
  have hlen := m.loader.length_load r m.keyLength
  have hlen' := m.loader.length_load s m.keyLength
  rw [Merger.mergeLeaves, Key.suffix_of_le hle, ok_bind]
  dsimp only
  split
  · rename_i hsplit
    have hsame := Key.eq_of_commonLength hr hs hlen hlen' hsplit
    refine ⟨.leaf r, 1, rfl, Tree.formed_leaf hr, ?_, rfl⟩
    intro x
    simp only [RadixIndex.Tree.records_leaf, List.mem_singleton, forall_eq]
    exact ⟨Or.inl, fun h => h.resolve_right fun ⟨hx, hne⟩ => hne (hx ▸ hsame)⟩
  · rename_i hsplit
    obtain ⟨shared, a, b, hab, hlength, ha, hb⟩ :=
      Key.exists_fork_below hr hs hlen hlen' (Nat.lt_of_not_le hsplit)
    rw [← hlength, Key.slice_of_path (Key.prefix_of_append ha), ← List.length_append,
      Key.byteAt_of_path ha, Key.byteAt_of_path hb]
    exact fork_ok hQ hab (Merged.left (Tree.formed_leaf ha)) (Merged.right (Tree.formed_leaf hb))

/-! ## Children to be lined up -/

section Children

variable {h : Header} {c : Fin (NodeHeader.width h) → Tree} {b : UInt8} {rest : Key}

/-- The children of a node that is ready. -/
theorem Tree.Ready.children (ht : Tree.Ready Q m.loader m.keyLength path (.node h c))
    (hstem : h.stem = stem) : Children Q m (path ++ stem) (RadixIndex.Node.children ⟨h, c⟩) ∧
      2 ≤ (RadixIndex.Node.children ⟨h, c⟩).length := by
  obtain ⟨hnd, hbelow⟩ := Tree.ready_node ht
  subst hstem
  exact ⟨⟨hnd.sound.children_ordered, fun e he => .formed (hbelow e he)⟩, hnd.two_le⟩

/-- A node with a longer stem as the only child under the byte where the rest of its
stem begins. -/
theorem Tree.Ready.longer (ht : Tree.Ready Q m.loader m.keyLength path (.node h c))
    (hstem : h.stem = stem ++ b :: rest) :
    Tree.Ready Q m.loader m.keyLength (path ++ stem ++ [b]) (Node.withStem ⟨h, c⟩ rest) ∧
      (Node.withStem ⟨h, c⟩ rest).records = (RadixIndex.Tree.node h c).records := by
  obtain ⟨hnd, hbelow⟩ := Tree.ready_node ht
  refine Node.ready_withStem hnd hbelow ?_
  show path ++ stem ++ [b] ++ rest = path ++ h.stem
  rw [hstem]
  simp

theorem children_singleton {t : Tree}
    (ht : Tree.Ready Q m.loader m.keyLength (path ++ [b]) t) : Children Q m path [(b, t)] :=
  ⟨List.pairwise_singleton _ _, fun e he => by rw [List.mem_singleton.mp he]; exact ht⟩

theorem records_singleton (b : UInt8) (t : Tree) :
    ([(b, t)].flatMap fun e => e.2.records) = t.records :=
  List.flatMap_singleton (fun e : UInt8 × Tree => e.2.records) (b, t)

end Children

/-- Lining up slots and lining up what is in them is the same. -/
theorem align_slots {ι κ : Type} (f : ι → Tree) (g : κ → Tree) {both : Tree → Tree → Merger.Result}
    {xs : List (UInt8 × ι)} {ys : List (UInt8 × κ)}
    {step : UInt8 × Pairing ι κ → Except Fault (UInt8 × Tree × Nat)}
    (hstep : ∀ b pairing, step (b, pairing) = m.part both (b, pairing.map f g)) :
    ((align xs ys).mapM step >>= m.assemble stem) =
      ((align (xs.map fun x => (x.1, f x.2)) (ys.map fun y => (y.1, g y.2))).mapM (m.part both) >>=
        m.assemble stem) := by
  rw [align_map, List.mapM_map]
  congr 2
  exact funext fun e => hstep e.1 e.2

/-! ## A leaf and a tree -/

section Leaf

variable {h : Header} {c : Fin (NodeHeader.width h) → Tree} {r : Record}
  {newer : Bool} {a b : UInt8} {shared segment rest rest' : Key}

/-- A leaf is lined up with the children of a node like an only child. -/
theorem mergeLeaf_node {depth : Nat} : m.mergeLeaf r newer (.node h c) depth = (do
    let path ← Key.slice (m.loader.load r m.keyLength) depth (depth + h.stem.length)
    let byte ← Key.byteAt (m.loader.load r m.keyLength) (depth + h.stem.length)
    let common := Key.commonLength path h.stem
    match path.drop common, h.stem.drop common with
    | a :: _, b :: rest =>
        m.fork (path.take common) a (.leaf r)
          b (Tree.settled m.policy (Node.withStem ⟨h, c⟩ rest))
    | _, _ =>
        (align [(byte, RadixIndex.Tree.leaf r)] (RadixIndex.Node.children ⟨h, c⟩)).mapM
          (m.part fun _ t => m.mergeLeaf r newer t (depth + h.stem.length + 1)) >>=
            m.assemble path) := by
  rw [Merger.mergeLeaf]
  refine bind_congr fun path => bind_congr fun byte => ?_
  dsimp only
  cases path.drop (Key.commonLength path h.stem) with
  | nil =>
      exact align_slots (fun _ : Unit => RadixIndex.Tree.leaf r) c fun _ pairing => by
        cases pairing <;> rfl
  | cons a _ =>
      cases h.stem.drop (Key.commonLength path h.stem) with
      | nil =>
          exact align_slots (fun _ : Unit => RadixIndex.Tree.leaf r) c fun _ pairing => by
            cases pairing <;> rfl
      | cons b rest => rfl

theorem mergeLeaf_fork (hkey : path ++ segment ++ [b] <+: m.loader.load r m.keyLength)
    (hlength : segment.length = h.stem.length)
    (hshared : shared.length = Key.commonLength segment h.stem) {a' : UInt8}
    (hsegment : segment = shared ++ a :: rest) (hstem : h.stem = shared ++ a' :: rest') :
    m.mergeLeaf r newer (.node h c) path.length =
      m.fork shared a (.leaf r) a' (Tree.settled m.policy (Node.withStem ⟨h, c⟩ rest')) := by
  rw [mergeLeaf_node, ← hlength, Key.slice_of_path (Key.prefix_of_append hkey), ok_bind,
    ← List.length_append, Key.byteAt_of_path hkey, ok_bind, ← hshared]
  dsimp only
  rw [hsegment, hstem, List.drop_left, List.drop_left, List.take_left]

theorem mergeLeaf_join (hkey : path ++ h.stem ++ [b] <+: m.loader.load r m.keyLength) :
    m.mergeLeaf r newer (.node h c) path.length =
      ((align [(b, RadixIndex.Tree.leaf r)] (RadixIndex.Node.children ⟨h, c⟩)).mapM
        (m.part fun _ t => m.mergeLeaf r newer t (path ++ h.stem ++ [b]).length) >>=
          m.assemble h.stem) := by
  have hcommon : Key.commonLength h.stem h.stem = h.stem.length :=
    Key.commonLength_eq_length.mpr (List.prefix_refl _)
  rw [mergeLeaf_node, Key.slice_of_path (Key.prefix_of_append hkey), ok_bind,
    ← List.length_append, Key.byteAt_of_path hkey, ok_bind, hcommon, Key.length_below,
    List.length_append]
  dsimp only
  rw [List.drop_length]

/-- A leaf is merged into a tree, which may be the newer or the older side. -/
theorem mergeLeaf_ok (newer : Bool) (hQ : Suits Q m.policy) {t : Tree}
    (ht : Tree.Ready Q m.loader m.keyLength path t)
    (hr : path <+: m.loader.load r m.keyLength) :
    ∃ t' common, m.mergeLeaf r newer t path.length = .ok (t', common) ∧
      MergedAs Q m path newer [r] t.records t' common := by
  induction t generalizing path with
  | empty => exact absurd rfl ht.fits.ne_empty
  | leaf s =>
      have hs : path <+: m.loader.load s m.keyLength :=
        ht.fits.path_of_mem (List.mem_singleton_self s)
      cases newer with
      | true => exact mergeLeaves_ok hQ hr hs
      | false => exact mergeLeaves_ok hQ hs hr
  | node h c ih =>
      obtain ⟨hnd, hbelow⟩ := Tree.ready_node ht
      obtain ⟨segment, b, hlength, hkey⟩ := Key.exists_segment hr (k := h.stem.length)
        (by rw [m.loader.length_load]; exact hnd.length_lt)
      have hle := Key.commonLength_le_left segment h.stem
      rcases Nat.lt_or_eq_of_le hle with hlt | hwhole
      · obtain ⟨shared, a, rest, a', rest', haa, hshared, hsegment, hstem⟩ :=
          Key.exists_fork segment h.stem hlt (hlength ▸ hlt)
        obtain ⟨hready, hrecords⟩ := ht.longer hstem
        obtain ⟨hnewer, holder⟩ := Tree.Ready.merged hQ hready
        have hleaf : path ++ shared ++ [a] <+: m.loader.load r m.keyLength := by
          refine List.IsPrefix.trans ⟨rest ++ [b], ?_⟩ hkey
          rw [hsegment]
          simp
        rw [mergeLeaf_fork hkey hlength hshared hsegment hstem, ← hrecords]
        cases newer with
        | true => exact fork_ok hQ haa (Merged.left (Tree.formed_leaf hleaf)) holder
        | false => exact fork_ok hQ haa (Merged.right (Tree.formed_leaf hleaf)) hnewer
      · -- The key goes on with the whole stem, and below it as the next byte says.
        obtain rfl : segment = h.stem :=
          (Key.commonLength_eq_length.mp hwhole).eq_of_length hlength
        obtain ⟨hchildren, htwo⟩ := ht.children rfl
        rw [mergeLeaf_join hkey, RadixIndex.Tree.records_node]
        refine join_ok newer hQ (children_singleton (.formed (Tree.formed_leaf hkey))) hchildren
          (Or.inr htwo) fun b' x y hx hy => ?_
        obtain ⟨rfl, rfl⟩ := Prod.mk.inj (List.mem_singleton.mp hx)
        obtain ⟨i, hs, rfl⟩ := RadixIndex.Node.mem_children.mp hy
        exact ih i (hchildren.ready _ hy) hkey

end Leaf

/-! ## Two nodes -/

section Nodes

variable {h h' : Header} {c : Fin (NodeHeader.width h) → Tree}
  {c' : Fin (NodeHeader.width h') → Tree} {a b : UInt8} {rest rest' : Key} {depth common : Nat}

theorem merge_join (hc : common = Key.commonLength h.stem h'.stem)
    (hs : h.stem.drop common = []) (hs' : h'.stem.drop common = []) :
    m.merge (.node h c) (.node h' c') depth =
      ((align (RadixIndex.Node.children ⟨h, c⟩) (RadixIndex.Node.children ⟨h', c'⟩)).mapM
        (m.part fun x y => m.merge x y (depth + common + 1)) >>=
          m.assemble (h.stem.take common)) := by
  subst hc
  rw [Merger.merge]
  split
  · exact align_slots c c' fun _ pairing => by cases pairing <;> rfl
  · simp_all
  · simp_all
  · simp_all

theorem merge_join_older (hc : common = Key.commonLength h.stem h'.stem)
    (hs : h.stem.drop common = []) (hs' : h'.stem.drop common = b :: rest) :
    m.merge (.node h c) (.node h' c') depth =
      ((align (RadixIndex.Node.children ⟨h, c⟩) [(b, Node.withStem ⟨h', c'⟩ rest)]).mapM
        (m.part fun x y => m.merge x y (depth + common + 1)) >>=
          m.assemble (h.stem.take common)) := by
  subst hc
  rw [Merger.merge]
  split
  · simp_all
  · rename_i hrest
    obtain ⟨rfl, rfl⟩ := List.cons.inj (hrest.symm.trans hs')
    exact align_slots c (fun _ : Unit => Node.withStem ⟨h', c'⟩ _) fun _ pairing => by
      cases pairing <;> rfl
  · simp_all
  · simp_all

theorem merge_join_newer (hc : common = Key.commonLength h.stem h'.stem)
    (hs : h.stem.drop common = a :: rest) (hs' : h'.stem.drop common = []) :
    m.merge (.node h c) (.node h' c') depth =
      ((align [(a, Node.withStem ⟨h, c⟩ rest)] (RadixIndex.Node.children ⟨h', c'⟩)).mapM
        (m.part fun x y => m.merge x y (depth + common + 1)) >>=
          m.assemble (h.stem.take common)) := by
  subst hc
  rw [Merger.merge]
  split
  · simp_all
  · simp_all
  · rename_i hrest _
    obtain ⟨rfl, rfl⟩ := List.cons.inj (hrest.symm.trans hs)
    exact align_slots (fun _ : Unit => Node.withStem ⟨h, c⟩ _) c' fun _ pairing => by
      cases pairing <;> rfl
  · simp_all

theorem merge_fork (hc : common = Key.commonLength h.stem h'.stem)
    (hs : h.stem.drop common = a :: rest) (hs' : h'.stem.drop common = b :: rest') :
    m.merge (.node h c) (.node h' c') depth =
      m.fork (h.stem.take common) a (Tree.settled m.policy (Node.withStem ⟨h, c⟩ rest))
        b (Tree.settled m.policy (Node.withStem ⟨h', c'⟩ rest')) := by
  subst hc
  rw [Merger.merge]
  split
  · simp_all
  · simp_all
  · simp_all
  · rename_i hrest hrest'
    obtain ⟨rfl, rfl⟩ := List.cons.inj (hrest.symm.trans hs)
    obtain ⟨rfl, rfl⟩ := List.cons.inj (hrest'.symm.trans hs')
    rfl

theorem stem_newer (hrest : h.stem.drop common = rest) : h.stem = h.stem.take common ++ rest := by
  rw [← hrest, List.take_append_drop]

theorem stem_older (hc : common = Key.commonLength h.stem h'.stem)
    (hrest : h'.stem.drop common = rest) : h'.stem = h.stem.take common ++ rest := by
  rw [← hrest, hc, Key.shared_append]

theorem length_below_shared (h h' : Header) (hdepth : depth = path.length) (b : UInt8) :
    depth + Key.commonLength h.stem h'.stem + 1 =
      (path ++ h.stem.take (Key.commonLength h.stem h'.stem) ++ [b]).length := by
  rw [Key.length_below, Key.length_shared, hdepth]

/-- Two trees that are ready in the same place are merged without a fault. -/
theorem merge_ok (hQ : Suits Q m.policy) {s t : Tree}
    (hs : Tree.Ready Q m.loader m.keyLength path s)
    (ht : Tree.Ready Q m.loader m.keyLength path t) (hdepth : depth = path.length) :
    ∃ u common, m.merge s t depth = .ok (u, common) ∧
      Merged Q m path s.records t.records u common := by
  induction s, t, depth using Merger.merge.induct generalizing path with
  | case1 depth t => exact absurd rfl hs.fits.ne_empty
  | case2 depth s hne => exact absurd rfl ht.fits.ne_empty
  | case3 depth r t hne =>
      subst hdepth
      rw [Merger.merge.eq_3 m t _ r hne]
      exact mergeLeaf_ok true hQ ht (hs.fits.path_of_mem (List.mem_singleton_self r))
  | case4 depth s r hne hnode =>
      subst hdepth
      rw [Merger.merge.eq_4 m s _ r hne hnode]
      exact mergeLeaf_ok false hQ hs (ht.fits.path_of_mem (List.mem_singleton_self r))
  | case5 depth h c h' c' common below hrest hrest' =>
      rename_i ih
      have hbelow := length_below_shared h h' hdepth
      obtain ⟨hxs, htwo⟩ := hs.children ((stem_newer hrest).trans (List.append_nil _))
      obtain ⟨hys, -⟩ := ht.children ((stem_older rfl hrest').trans (List.append_nil _))
      rw [merge_join rfl hrest hrest', RadixIndex.Tree.records_node,
        RadixIndex.Tree.records_node]
      refine join_ok true hQ hxs hys (Or.inl htwo) ?_
      intro b x y hx hy
      obtain ⟨i, -, rfl⟩ := RadixIndex.Node.mem_children.mp hx
      obtain ⟨j, -, rfl⟩ := RadixIndex.Node.mem_children.mp hy
      exact ih i j (hxs.ready _ hx) (hys.ready _ hy) (hbelow b)
  | case6 depth h c h' c' common below b rest hrest hrest' longer =>
      rename_i ih
      have hbelow := length_below_shared h h' hdepth
      obtain ⟨hxs, htwo⟩ := hs.children ((stem_newer hrest).trans (List.append_nil _))
      obtain ⟨hready, hrecords⟩ := ht.longer (stem_older rfl hrest')
      rw [merge_join_older rfl hrest hrest', RadixIndex.Tree.records_node h c, ← hrecords,
        ← records_singleton b]
      refine join_ok true hQ hxs (children_singleton hready) (Or.inl htwo) ?_
      intro b' x y hx hy
      obtain ⟨i, -, rfl⟩ := RadixIndex.Node.mem_children.mp hx
      obtain ⟨rfl, rfl⟩ := Prod.mk.inj (List.mem_singleton.mp hy)
      exact ih i (hxs.ready _ hx) hready (hbelow b')
  | case7 depth h c h' c' common below a rest hrest hrest' longer =>
      rename_i ih
      have hbelow := length_below_shared h h' hdepth
      obtain ⟨hys, htwo⟩ := ht.children ((stem_older rfl hrest').trans (List.append_nil _))
      obtain ⟨hready, hrecords⟩ := hs.longer (stem_newer hrest)
      rw [merge_join_newer rfl hrest hrest', RadixIndex.Tree.records_node h' c', ← hrecords,
        ← records_singleton a]
      refine join_ok true hQ (children_singleton hready) hys (Or.inr htwo) ?_
      intro a' x y hx hy
      obtain ⟨rfl, rfl⟩ := Prod.mk.inj (List.mem_singleton.mp hx)
      obtain ⟨j, -, rfl⟩ := RadixIndex.Node.mem_children.mp hy
      exact ih j hready (hys.ready _ hy) (hbelow a')
  | case8 depth h c h' c' common a rest b rest' hrest =>
      rename_i hrest'
      obtain ⟨hready, hrecords⟩ := hs.longer (stem_newer hrest)
      obtain ⟨hready', hrecords'⟩ := ht.longer (stem_older rfl hrest')
      have hfork := fork_ok hQ (Key.commonLength_fork hrest hrest')
        (Tree.Ready.merged hQ hready).1 (Tree.Ready.merged hQ hready').2
      rw [hrecords, hrecords', List.append_nil, List.nil_append] at hfork
      rw [merge_fork rfl hrest hrest']
      exact hfork

end Nodes

/-! ## Roots -/

/-- Merging answers for any two roots: nothing and nothing is nothing, and in any other
case there is something, which is merged. -/
theorem merge_root_ok (hQ : Suits Q m.policy) {s t : Tree}
    (hs : s = .empty ∨ Tree.Formed Q m.loader m.keyLength [] s)
    (ht : t = .empty ∨ Tree.Formed Q m.loader m.keyLength [] t) :
    ∃ u common, m.merge s t 0 = .ok (u, common) ∧
      (s = .empty ∧ t = .empty ∧ u = .empty ∧ common = 0 ∨
        Merged Q m [] s.records t.records u common) := by
  rcases hs with rfl | hs
  · rcases ht with rfl | ht
    · exact ⟨.empty, 0, Merger.merge.eq_1 m _ 0, Or.inl ⟨rfl, rfl, rfl, rfl⟩⟩
    · exact ⟨_, 0, Merger.merge.eq_1 m t 0, Or.inr (Tree.Ready.merged hQ (.formed ht)).2⟩
  · rcases ht with rfl | ht
    · exact ⟨_, 0, Merger.merge.eq_2 m s 0 hs.fits.ne_empty,
        Or.inr (Tree.Ready.merged hQ (.formed hs)).1⟩
    · obtain ⟨u, common, heq, hmerged⟩ := merge_ok hQ (.formed hs) (.formed ht) rfl
      exact ⟨u, common, heq, Or.inr hmerged⟩

end RadixIndex.Static
