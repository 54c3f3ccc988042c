/-
# Reports, counters and contents

Three accounts are kept of the nodes of a tree: the shape report, made level by level, the
counters, and the number of records.  They agree in every tree that there can be
(`accounts_agree`), whether the counters were carried along from one write to the next, as
in a dynamic tree, or made with the tree, as in a static one.

    report    what a report adds up does not depend on the order of the nodes, so going
              through them level by level makes the report of `Tree.histogram`
              (`Tree.levelReport_eq`)
    counters  they count the nodes that the report adds up, and their memory
    contents  every node but the root is a child of another one, and so is every leaf, so
              the children of all nodes are the nodes and the leaves but for the root
              (`Tree.Fits.children_eq`)
-/
import RadixIndex.Proofs.Dynamic.Regular
import RadixIndex.Proofs.Dynamic.Undo
import RadixIndex.Proofs.Histogram
import RadixIndex.Proofs.Static.Shape
import RadixIndex.Tree.Levels

namespace RadixIndex

variable {H : Type} [NodeHeader H]

/-! ## What a report adds up -/

theorem sum_set_succ {l : List Nat} {i : Nat} (h : i < l.length) :
    (l.set i (l[i] + 1)).sum = l.sum + 1 := by
  induction l generalizing i with
  | nil => exact absurd h (Nat.not_lt_zero i)
  | cons x l ih =>
      cases i with
      | zero =>
          rw [List.set_cons_zero, List.sum_cons, List.sum_cons, List.getElem_cons_zero]
          omega
      | succ i =>
          rw [List.set_cons_succ, List.sum_cons, List.sum_cons, List.getElem_cons_succ,
            ih (Nat.lt_of_succ_lt_succ h), Nat.add_assoc]

namespace Histogram

variable (s : Histogram) (nd : Node H)

theorem innerBytes_add : (s.add nd).innerBytes =
    s.innerBytes + if nd.isInner then NodeHeader.footprint nd.header else 0 := by
  simp only [add]
  split <;> split <;> rfl

theorem leafBytes_add : (s.add nd).leafBytes =
    s.leafBytes + if nd.isInner then 0 else NodeHeader.footprint nd.header := by
  simp only [add]
  split <;> split <;> rfl

theorem nodes_add : (s.add nd).nodes = s.nodes + 1 := by
  have hsum : ∀ v : Vector Nat (inlineCapacity + 1),
      @Vector.sum Nat _ _ Zero.ofOfNat0 v = v.toList.sum := fun _ => Vector.sum_toList.symm
  rw [nodes, nodes, stemLengths_add, longStems_add, hsum, hsum]
  by_cases h : nd.stemLength < inlineCapacity + 1
  · have hset := sum_set_succ (l := s.stemLengths.toList) (i := nd.stemLength) (by simpa using h)
    rw [dif_pos h, if_pos h, Vector.toList_set, ← Vector.getElem_toList (by simpa using h), hset]
    omega
  · rw [dif_neg h, if_neg h, Nat.add_assoc]

theorem getElem_stemLengths_add {i : Nat} (hi : i < inlineCapacity + 1) :
    (s.add nd).stemLengths[i] = s.stemLengths[i] + if nd.stemLength = i then 1 else 0 := by
  simp only [stemLengths_add]
  by_cases h : nd.stemLength < inlineCapacity + 1
  · simp only [dif_pos h, Vector.getElem_set]
    split
    · rename_i heq
      simp only [heq]
    · rfl
  · have hne : nd.stemLength ≠ i := fun heq => h (heq ▸ hi)
    simp only [dif_neg h, if_neg hne, Nat.add_zero]

attribute [ext] Histogram

/-- Of two nodes it does not matter which one is put in first. -/
instance : RightCommutative (add : Histogram → Node H → Histogram) where
  right_comm s nd nd' := by
    ext1
    · rw [items_add, items_add, items_add, items_add, Nat.add_right_comm]
    · rw [innerBytes_add, innerBytes_add, innerBytes_add, innerBytes_add, Nat.add_right_comm]
    · rw [leafBytes_add, leafBytes_add, leafBytes_add, leafBytes_add, Nat.add_right_comm]
    · refine Vector.ext fun i hi => ?_
      rw [getElem_stemLengths_add, getElem_stemLengths_add, getElem_stemLengths_add,
        getElem_stemLengths_add, Nat.add_right_comm]
    · rw [longStems_add, longStems_add, longStems_add, longStems_add]
      split <;> split <;> rfl

/-- The children, the nodes and the memory are added up. -/
theorem foldl_add (ns : List (Node H)) (s : Histogram) :
    (ns.foldl add s).items = s.items + (ns.map Node.count).sum ∧
      (ns.foldl add s).nodes = s.nodes + ns.length ∧
      (ns.foldl add s).innerBytes + (ns.foldl add s).leafBytes = s.innerBytes + s.leafBytes +
        (ns.map fun nd => NodeHeader.footprint nd.header).sum := by
  induction ns generalizing s with
  | nil => exact ⟨rfl, rfl, rfl⟩
  | cons nd ns ih =>
      obtain ⟨hitems, hnodes, hbytes⟩ := ih (s.add nd)
      refine ⟨?_, ?_, ?_⟩
      · rw [List.foldl_cons, hitems, items_add, List.map_cons, List.sum_cons, Nat.add_assoc]
      · rw [List.foldl_cons, hnodes, nodes_add, List.length_cons]
        omega
      · rw [List.foldl_cons, hbytes, innerBytes_add, leafBytes_add, List.map_cons, List.sum_cons]
        split <;> omega

/-- A node with a leaf among its children puts its memory where the report has that of such
nodes. -/
theorem le_leafBytes_foldl {ns : List (Node H)} {nd : Node H} (hnd : nd ∈ ns)
    (hleaf : nd.isInner = false) (s : Histogram) :
    s.leafBytes + NodeHeader.footprint nd.header ≤ (ns.foldl add s).leafBytes := by
  have hgrows : ∀ (ms : List (Node H)) (s : Histogram),
      s.leafBytes ≤ (ms.foldl add s).leafBytes := by
    intro ms
    induction ms with
    | nil => exact fun s => Nat.le_refl _
    | cons m ms ih =>
        intro s
        refine Nat.le_trans ?_ (ih (s.add m))
        rw [leafBytes_add]
        exact Nat.le_add_right _ _
  obtain ⟨pre, post, rfl⟩ := List.append_of_mem hnd
  rw [List.foldl_append, List.foldl_cons]
  have hadd : ((pre.foldl add s).add nd).leafBytes =
      (pre.foldl add s).leafBytes + NodeHeader.footprint nd.header := by
    rw [leafBytes_add, if_neg (Bool.eq_false_iff.mp hleaf)]
  have hpre := hgrows pre s
  have hpost := hgrows post ((pre.foldl add s).add nd)
  omega

/-! ## Level by level -/

/-- The walk puts in every node below those of the queue. -/
theorem walk_eq (s : Histogram) (queue : List (Node H)) :
    s.walk queue = (queue.flatMap fun n => n.toTree.nodes).foldl add s := by
  fun_induction walk s queue with
  | case1 s => rfl
  | case2 s n queue ih =>
      have hperm : ((queue ++ n.innerChildren).flatMap fun m => m.toTree.nodes).Perm
          ((n.innerChildren.flatMap fun m => m.toTree.nodes) ++
            queue.flatMap fun m => m.toTree.nodes) := by
        rw [List.flatMap_append]
        exact List.perm_append_comm
      rw [ih, hperm.foldl_eq, List.flatMap_cons, Node.nodes_toTree n]
      rfl

end Histogram

namespace Tree

/-- Level by level or each node before those below it, the report is the same. -/
theorem levelReport_eq (t : Tree H) : t.levelReport = t.histogram := by
  rw [levelReport, Histogram.walk_eq, ← Node.nodes_of_node?, histogram]

/-! ## Nodes and leaves -/

variable {L : Loader} {n : Nat} {path : Key} {t : Tree H}

/-- All nodes and leaves but the root are children. -/
theorem Fits.children_eq (ht : t.Fits L n path) :
    (t.nodes.map Node.count).sum + 1 = t.nodes.length + t.records.length := by
  induction ht with
  | leaf _ => rfl
  | @node path stem h c hsound _ _ _ ih =>
      rw [nodes_node, records_node, List.map_cons, List.sum_cons, hsound.count_eq_length,
        List.length_cons]
      have hbelow : ∀ l : List (UInt8 × Tree H), (∀ e ∈ l,
            (e.2.nodes.map Node.count).sum + 1 = e.2.nodes.length + e.2.records.length) →
          l.length + ((l.flatMap fun e => e.2.nodes).map Node.count).sum =
            (l.flatMap fun e => e.2.nodes).length + (l.flatMap fun e => e.2.records).length := by
        intro l hl
        induction l with
        | nil => rfl
        | cons e l ihl =>
            have he := hl e List.mem_cons_self
            have hrest := ihl fun e' he' => hl e' (List.mem_cons_of_mem _ he')
            simp only [List.flatMap_cons, List.map_append, List.sum_append, List.length_append,
              List.length_cons]
            omega
      have hsum := hbelow _ ih
      omega

/-- Some node has a leaf among its children. -/
theorem Fits.exists_above_leaf (ht : t.Fits L n path) (hnode : t.node?.isSome) :
    ∃ nd ∈ t.nodes, nd.isInner = false := by
  induction ht with
  | leaf _ => exact absurd hnode nofun
  | @node path stem h c hsound _ htwo _ ih =>
      obtain ⟨e, he⟩ := List.exists_mem_of_length_pos (Nat.lt_of_lt_of_le Nat.zero_lt_two htwo)
      rw [nodes_node]
      cases hchild : e.2 with
      | empty => exact absurd hchild (hsound.child_ne_empty he)
      | leaf r =>
          refine ⟨⟨h, c⟩, List.mem_cons_self, ?_⟩
          refine Bool.eq_false_iff.mpr fun hall => ?_
          have hnot := List.all_eq_true.mp hall e he
          rw [hchild] at hnot
          exact absurd hnot nofun
      | node h' c' =>
          obtain ⟨nd, hnd, hleaf⟩ := ih e he (by rw [hchild]; rfl)
          exact ⟨nd, List.mem_cons_of_mem _ (List.mem_flatMap.mpr ⟨e, he, hnd⟩), hleaf⟩

end Tree

/-! ## Accounts of a tree -/

/-- The shape report, the counters and the number of records of a tree agree. -/
structure Accounted (root : Tree H) (report : Histogram) (size nodes memory : Nat) : Prop where
  /-- The report is made level by level. -/
  report_eq : root.levelReport = report
  nodes_eq : report.nodes = nodes
  memory_eq : report.innerBytes + report.leafBytes = memory
  /-- If there are nodes, all nodes and leaves but the root are children. -/
  inner : root.node?.isSome → report.items = size + nodes - 1 ∧ 0 < nodes ∧ 0 < report.leafBytes
  /-- If there are none, nothing is reported. -/
  outer : root.node? = none → report = {} ∧ nodes = 0

theorem Tree.accounted {L : Loader} {n : Nat} {t : Tree H} (ht : t = .empty ∨ t.Fits L n [])
    (hfootprint : ∀ h : H, 0 < NodeHeader.footprint h) :
    Accounted t t.histogram t.records.length t.nodes.length
      (t.nodes.map fun nd => NodeHeader.footprint nd.header).sum := by
  obtain ⟨hitems, hnodes, hbytes⟩ := Histogram.foldl_add t.nodes {}
  have hnone : t.node? = none → t.nodes = [] := by
    intro h
    rw [Node.nodes_of_node?, h]
    rfl
  refine ⟨t.levelReport_eq, hnodes.trans (Nat.zero_add _), hbytes.trans (Nat.zero_add _), ?_, ?_⟩
  · intro hsome
    have hfits : t.Fits L n [] := ht.resolve_left fun h => by
      rw [h] at hsome
      exact absurd hsome nofun
    obtain ⟨nd, hnd, hleaf⟩ := hfits.exists_above_leaf hsome
    have hpos := List.length_pos_of_mem hnd
    have hchildren := hfits.children_eq
    have hmemory := Histogram.le_leafBytes_foldl hnd hleaf {}
    have hown := hfootprint nd.header
    refine ⟨?_, hpos, Nat.lt_of_lt_of_le (Nat.lt_of_lt_of_le hown (Nat.le_add_left _ _)) hmemory⟩
    rw [histogram, hitems]
    show 0 + _ = _
    omega
  · intro h
    rw [histogram, hnone h]
    exact ⟨rfl, rfl⟩

theorem Dynamic.footprint_pos (h : Dynamic.Header) : 0 < NodeHeader.footprint h := by
  show 0 < h.layout.size.footprint
  cases h.layout.size <;> decide

theorem Static.footprint_pos (h : Static.Header) : 0 < NodeHeader.footprint h := by
  show 0 < 96 + h.stem.length + _
  omega

namespace DynamicTree

variable {L : Loader} {n : Nat} {t : DynamicTree} {m : Contents}

theorem Refines.accounted (h : t.Refines L n m) :
    Accounted t.root t.histogram t.size t.stats.nodes t.stats.memory := by
  have haccounted := RadixIndex.Tree.accounted h.fits Dynamic.footprint_pos
  rw [h.size_eq, h.stats_eq, Dynamic.Tree.nodes_recount]
  have hmemory : t.root.recount.memory = (t.root.nodes.map fun nd =>
      NodeHeader.footprint nd.header).sum := by
    rw [Dynamic.Tree.recount_eq]
    exact Dynamic.Stats.memory_sum t.root.nodes
  rw [hmemory]
  exact haccounted

end DynamicTree

/-- In the counters of a static tree every node is counted that is not loose. -/
theorem Static.Stats.nodes_foldl {ns : List Static.Node}
    (hns : ∀ nd ∈ ns, nd.header.isLoose = false) (s : Static.Stats) :
    (ns.foldl (fun s nd => s.add nd.header) s).nodes = s.nodes + ns.length := by
  induction ns generalizing s with
  | nil => rfl
  | cons nd ns ih =>
      have hone : (s.add nd.header).nodes = s.nodes + 1 := by
        have hloose := hns nd List.mem_cons_self
        simp only [Static.Stats.nodes, Static.Stats.add]
        cases hshape : nd.header with
        | loose stem keys =>
            rw [hshape] at hloose
            exact absurd hloose nofun
        | _ => dsimp only; omega
      rw [List.foldl_cons, ih (fun nd' h => hns nd' (List.mem_cons_of_mem _ h)), hone,
        List.length_cons]
      omega

namespace StaticTree

open Static

variable {L : Loader} {n : Nat} {t : StaticTree}

/-- Whatever the policies, a static tree is made of its root and of nothing else. -/
theorem Reachable.eq_ofRoot (h : t.Reachable L n) :
    t = ofRoot t.root n t.root.records.length := by
  cases h with
  | @freeze t rest p f ht heq =>
      obtain ⟨m, hm⟩ := ht.refines
      obtain ⟨root, heq', -⟩ :=
        freeze_root (Q := Node.IsPacked) (p := p) (fun l _ => ⟨l, p, rfl⟩) hm
      obtain ⟨rfl, -⟩ := Prod.mk.inj (Except.ok.inj (heq.symm.trans heq'))
      rfl
  | @merge newer older t p outcome hnewer holder heq =>
      obtain ⟨m, hm⟩ := hnewer.refines
      obtain ⟨m', hm'⟩ := holder.refines
      obtain ⟨root, heq', -⟩ := hm.merge_root (suits_isPacked p) hm' hm.root hm'.root
      obtain ⟨rfl, -⟩ := Prod.mk.inj (Except.ok.inj (heq.symm.trans heq'))
      rfl

theorem Reachable.accounted (h : t.Reachable L n) :
    Accounted t.root t.histogram t.size t.stats.nodes t.stats.memory := by
  obtain ⟨m, hm⟩ := h.refines
  have haccounted := RadixIndex.Tree.accounted hm.fits Static.footprint_pos
  have hstats : t.stats = t.root.recount := congrArg stats h.eq_ofRoot
  have hpacked : ∀ nd ∈ t.root.nodes, nd.header.isLoose = false := by
    rcases hm.root with hroot | hroot
    · rw [hroot]
      exact fun _ h => absurd h List.not_mem_nil
    · exact fun nd hnd => (suits_isPacked {}).not_loose nd (hroot.each nd hnd)
  have hnodes : t.stats.nodes = t.root.nodes.length := by
    rw [hstats, Tree.recount, Stats.nodes_foldl hpacked]
    exact Nat.zero_add _
  have hmemory : t.stats.memory = (t.root.nodes.map fun nd =>
      NodeHeader.footprint nd.header).sum := by
    rw [hstats, Tree.recount, (Stats.foldl_add t.root.nodes {}).2]
    exact Nat.zero_add _
  rw [hm.size_eq, hnodes, hmemory]
  exact haccounted

end StaticTree

/-- In every tree that there can be, report, counters and contents agree. -/
theorem accounts_agree (L : Loader) (n : Nat) :
    (∀ t : DynamicTree, t.Reachable L n →
      Accounted t.root t.histogram t.size t.stats.nodes t.stats.memory) ∧
    ∀ t : StaticTree, t.Reachable L n →
      Accounted t.root t.histogram t.size t.stats.nodes t.stats.memory := by
  refine ⟨fun t ht => ?_, fun t ht => ht.accounted⟩
  obtain ⟨m, hm⟩ := ht.refines
  exact hm.accounted

/-- A tree that has grown, has been split at a stem and has lost a key since, and the static
tree that freezing makes of it. -/
theorem accounts_agree_of_two_nodes :
    let L := Loader.modulo 65536
    let writes : List DynamicTree.Write := [.insert (L.load 1 20) 1, .insert (L.load 2 20) 2,
      .insert (L.load 3 20) 3, .upsert (L.load 4 20) 4, .insert (L.load 5 20) 5,
      .insert (L.load 256 20) 256, .erase (L.load 3 20)]
    ∃ t f, DynamicTree.writeAll L (.empty 20) writes = .ok t ∧
      t.freeze L {} = .ok (f, .empty 20) ∧
      (t.size = 5 ∧ t.stats.nodes = 2) ∧ t.Reachable L 20 ∧ f.Reachable L 20 ∧
      Accounted t.root t.histogram t.size t.stats.nodes t.stats.memory ∧
      Accounted f.root f.histogram f.size f.stats.nodes f.stats.memory := by
  intro L writes
  obtain ⟨t, hrun, ht⟩ := DynamicTree.exists_reachable L 20 writes (by decide +kernel)
  have hmade : (DynamicTree.writeAll L (.empty 20) writes).map
      (fun t => (t.size, t.stats.nodes)) = .ok (5, 2) := by decide +kernel
  rw [hrun] at hmade
  simp only [Except.map, Except.ok.injEq, Prod.mk.injEq] at hmade
  obtain ⟨m, hm⟩ := ht.refines
  obtain ⟨f, hfreeze, -⟩ := StaticTree.freeze_ok hm {}
  have hf : f.Reachable L 20 := .freeze ht hfreeze
  exact ⟨t, f, hrun, hfreeze, hmade, ht, hf, (accounts_agree L 20).1 t ht,
    (accounts_agree L 20).2 f hf⟩

end RadixIndex
