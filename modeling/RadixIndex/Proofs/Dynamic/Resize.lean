/-
# Moving to another layout

Growing and shrinking change how a node finds its children and nothing else: the
node that comes out is sound, has the same stem and lists the same children
(`Node.Relaid`).  Each of the six moves lays the list of children out anew, so the
proofs are those of `RadixIndex.Proofs.Listed`, once for each kind of layout.

Taking the children out of their slots one after the other finds all of them, since
in a sound node no two bytes lead to the same slot (`takeChildren_eq`).
-/
import RadixIndex.Dynamic.Node
import RadixIndex.Proofs.Dynamic.Layout
import RadixIndex.Proofs.Listed

namespace RadixIndex.Dynamic

/-- The size that a full node grows to. -/
def Size.larger : Size → Size
  | .four => .sixteen
  | .sixteen => .fortyEight
  | .fortyEight | .full => .full

/-- The size that a node shrinks to. -/
def Size.smaller : Size → Size
  | .four | .sixteen => .four
  | .fortyEight => .sixteen
  | .full => .fortyEight

namespace Node

/-- The node `n'` is `n` in a layout of another size. -/
structure Relaid (n n' : Node) (target : Size) : Prop where
  sound : n'.Sound
  size_eq : size n' = target
  stem_eq : n'.header.stem = n.header.stem
  children_eq : RadixIndex.Node.children n' = n.children

/-! ## Taking the children out -/

theorem emptying_eq {w : Nat} {l : List (UInt8 × Fin w)} {emptied : List (Fin w)}
    (hl : (l.map Prod.snd).Nodup) (he : ∀ s ∈ l, s.2 ∉ emptied) :
    emptying l emptied = l.map fun s => (s.1, some s.2) := by
  induction l generalizing emptied with
  | nil => rfl
  | cons s l ih =>
      obtain ⟨hs, hl⟩ := List.nodup_cons.mp hl
      rw [emptying, if_neg (he s List.mem_cons_self), List.map_cons, ih hl]
      intro s' hs' hmem
      rcases List.mem_cons.mp hmem with heq | hmem
      · exact hs (heq ▸ List.mem_map_of_mem hs')
      · exact he s' (List.mem_cons_of_mem _ hs') hmem

theorem takeChildren_eq {n : Node} (hn : n.Sound) : takeChildren n = n.children := by
  rw [takeChildren, emptying_eq hn.apart fun _ _ => List.not_mem_nil, List.map_map]
  rfl

/-! ## Laying a list of children out -/

section Lay

variable {stem : Stem} {l : List (UInt8 × Tree)}

theorem padded_of_lt {α : Type} {cells : List α} {blank : α} {w : Nat} {i : Fin w}
    (h : i.val < cells.length) : padded cells blank i = cells[i.val] := by
  rw [padded, List.getElem?_eq_getElem h, Option.getD_some]

theorem padded_of_ge {α : Type} {cells : List α} {blank : α} {w : Nat} {i : Fin w}
    (h : cells.length ≤ i.val) : padded cells blank i = blank := by
  rw [padded, List.getElem?_eq_none h, Option.getD_none]

theorem get_ofFn {α : Type} {w : Nat} (f : Fin w → α) (i : Fin w) :
    (Vector.ofFn f).get i = f i := by
  exact Vector.getElem_ofFn i.isLt

/-- Key bytes and cells that hold a list hold it also with more or less room. -/
theorem lists_padded {w w' : Nat} {keys : Vector UInt8 w} {cell : Fin w → Tree}
    (hl : Lists keys.get cell l) (hw : l.length ≤ w') :
    Lists (Vector.ofFn fun i : Fin w' => padded keys.toList 0 i).get
      (padded (List.ofFn cell) .empty) l := by
  have hwithin := hl.within
  refine ⟨hw, ?_, ?_⟩
  · intro i h
    rw [← hl.get ⟨i.val, by omega⟩ h, get_ofFn, padded_of_lt (by simp; omega),
      padded_of_lt (by simp; omega), List.getElem_ofFn]
    rfl
  · intro i h
    by_cases hi : i.val < w
    · rw [padded_of_lt (by simpa using hi), List.getElem_ofFn]
      exact hl.vacant ⟨i.val, hi⟩ h
    · exact padded_of_ge (by simpa using hi)

theorem lists_map {w : Nat} (hw : l.length ≤ w) :
    Lists (Vector.ofFn fun i : Fin w => padded (l.map Prod.fst) 0 i).get
      (padded (l.map Prod.snd) .empty) l := by
  refine ⟨hw, ?_, fun i h => padded_of_ge (by rwa [List.length_map])⟩
  intro i h
  rw [get_ofFn, padded_of_lt (by rwa [List.length_map]),
    padded_of_lt (by rwa [List.length_map]), List.getElem_map, List.getElem_map]

section

variable (hord : OrderedBy Prod.fst l) (hne : ∀ e ∈ l, e.2 ≠ .empty)

include hord hne

/-- A table that leads from each byte of a list to its number in the list. -/
theorem listed_fortyEight {table : Vector (Option (Fin 48)) 256} {count : Nat}
    {child : Fin 48 → Tree} (hlen : l.length = count) (hwithin : count ≤ 48)
    (htable : ∀ (b : UInt8) (i : Fin 48),
      table[b.toFin] = some i ↔ ∃ h : i.val < l.length, l[i.val].1 = b)
    (hchild : ∀ i : Fin 48, child i = padded (l.map Prod.snd) .empty i) :
    RadixIndex.Node.Sound (⟨⟨stem, .fortyEight table count⟩, child⟩ : Node) ∧
      RadixIndex.Node.children (⟨⟨stem, .fortyEight table count⟩, child⟩ : Node) = l := by
  subst hlen
  have hget : ∀ (i : Fin 48) (h : i.val < l.length), child i = l[i.val].2 := by
    intro i h
    rw [hchild, padded_of_lt (by rwa [List.length_map]), List.getElem_map]
  have hcell : ∀ i : Fin 48, child i ≠ .empty ↔ i.val < l.length := by
    intro i
    constructor
    · intro hi
      refine Nat.lt_of_not_le fun hle => hi ?_
      rw [hchild, padded_of_ge (by rwa [List.length_map])]
    · intro hi
      rw [hget i hi]
      exact hne _ (List.getElem_mem hi)
  have hlist : RadixIndex.Node.children (⟨⟨stem, .fortyEight table l.length⟩, child⟩ : Node)
      = l := by
    refine OrderedBy.ext (List.pairwise_map.mpr Layout.tableSlots_ordered) hord ?_
    rintro ⟨b, t⟩
    rw [mem_children_fortyEight, List.mem_iff_getElem]
    constructor
    · rintro ⟨i, hi, rfl⟩
      obtain ⟨h, rfl⟩ := (htable b i).mp hi
      exact ⟨i.val, h, by rw [hget i h]⟩
    · rintro ⟨i, h, he⟩
      refine ⟨⟨i, Nat.lt_of_lt_of_le h hwithin⟩, (htable b _).mpr ⟨h, ?_⟩, ?_⟩
      · exact congrArg Prod.fst he
      · exact (hget _ h).trans (congrArg Prod.snd he)
  refine ⟨sound_fortyEight.mpr ⟨?_, ?_, ?_⟩, hlist⟩
  · intro a b i ha hb
    obtain ⟨_, ha⟩ := (htable a i).mp ha
    obtain ⟨_, hb⟩ := (htable b i).mp hb
    exact ha.symm.trans hb
  · intro i
    rw [hcell]
    constructor
    · intro h
      exact ⟨l[i.val].1, (htable _ i).mpr ⟨h, rfl⟩⟩
    · rintro ⟨b, hb⟩
      exact ((htable b i).mp hb).1
  · exact (congrArg List.length hlist).symm.trans (List.length_map _)

theorem listed_full {count : Nat} {child : Fin 256 → Tree} (hlen : l.length = count)
    (hchild : child = byByte l) :
    RadixIndex.Node.Sound (⟨⟨stem, .full count⟩, child⟩ : Node) ∧
      RadixIndex.Node.children (⟨⟨stem, .full count⟩, child⟩ : Node) = l := by
  subst hchild
  have hlist := listed_direct hord hne
  refine ⟨sound_full.mpr ?_, hlist⟩
  rw [← hlen, ← congrArg List.length hlist, List.length_map]

end

end Lay

/-! ## The six moves -/

section Moves

theorem Relaid.of_listed {n n' : Node} {target : Size}
    (h : n'.Sound ∧ RadixIndex.Node.children n' = n.children) (hsize : size n' = target)
    (hstem : n'.header.stem = n.header.stem) : Relaid n n' target :=
  ⟨h.1, hsize, hstem, h.2⟩

/-- A node with key bytes that has the children of another. -/
theorem Relaid.of_keyed {n : Node} {h' : Header} {child' : Fin (NodeHeader.width h') → Tree}
    {key : Fin (NodeHeader.width h') → UInt8} (hn : n.Sound)
    (hlen : n.children.length = h'.layout.count)
    (hs : RadixIndex.Node.slots ⟨h', child'⟩ = Keyed.slots key h'.layout.count)
    (hl : Lists key child' n.children) (hstem : h'.stem = n.header.stem) :
    Relaid n (.build h' child') h'.layout.size := by
  rw [RadixIndex.Node.build_eq]
  rw [← hlen] at hs
  exact .of_listed (RadixIndex.Node.listed_keyed hs hlen.symm hl hn.children_ordered
    fun _ he => hn.child_ne_empty he) rfl hstem

theorem lookup_reverse_slots {w used : Nat} {key : Fin w → UInt8} {b : UInt8} {i : Fin w}
    (hasc : Keyed.AscendingBelow key used) :
    (Keyed.slots key used).reverse.lookup b = some i ↔ i.val < used ∧ key i = b := by
  rw [← Keyed.mem_slots, ← List.mem_reverse]
  refine lookup_eq_some ?_
  intro y z hy hz
  have := (Keyed.slots_ordered.mpr hasc).unique (List.mem_reverse.mp hy)
    (List.mem_reverse.mp hz) rfl
  exact (Prod.mk.inj this).2

theorem grow_ok {n : Node} (hn : n.Sound) (hfull : size n ≠ .full) :
    ∃ n', grow n = .ok n' ∧ Relaid n n' (size n).larger := by
  obtain ⟨⟨stem, layout⟩, child⟩ := n
  have hord := hn.children_ordered
  have hne : ∀ e ∈ RadixIndex.Node.children (⟨⟨stem, layout⟩, child⟩ : Node), e.2 ≠ .empty :=
    fun _ he => hn.child_ne_empty he
  cases layout with
  | full count => exact absurd rfl hfull
  | four keys used =>
      have hused := used.isLt
      obtain ⟨hlen, hl⟩ := hn.lists rfl rfl (Nat.le_of_lt_succ hused)
      have hroom := Nat.le_trans hl.within (show 4 ≤ 16 by decide)
      exact ⟨_, rfl, .of_keyed hn hlen rfl (lists_padded hl hroom) rfl⟩
  | sixteen keys used =>
      have hused := used.isLt
      obtain ⟨hlen, hl⟩ := hn.lists rfl rfl (Nat.le_of_lt_succ hused)
      have hlen : _ = used.val := hlen
      refine ⟨_, rfl, ?_⟩
      rw [ofFortyEight, RadixIndex.Node.build_eq]
      refine .of_listed (listed_fortyEight hord hne hlen (by omega) (fun b i => ?_) fun i => ?_)
        rfl rfl
      · simp only [Fin.getElem_fin, Vector.getElem_ofFn, Option.map_eq_some_iff, Fin.eta,
          lookup_reverse_slots (Keyed.slots_ordered.mp hn.ordered), UInt8.ofFin_toFin]
        constructor
        · rintro ⟨j, ⟨hj, rfl⟩, rfl⟩
          exact ⟨hlen ▸ hj, (congrArg Prod.fst (hl.get j (hlen ▸ hj))).symm⟩
        · rintro ⟨h, rfl⟩
          have hi : i.val < 16 := Nat.lt_of_lt_of_le h hl.within
          exact ⟨⟨i.val, hi⟩, ⟨hlen ▸ h, congrArg Prod.fst (hl.get ⟨i.val, hi⟩ h)⟩, rfl⟩
      · rw [RadixIndex.Node.children, List.map_map]
        rfl
  | fortyEight table count =>
      refine ⟨_, rfl, ?_⟩
      rw [ofFull, RadixIndex.Node.build_eq, takeChildren_eq hn]
      exact .of_listed (listed_full hord hne hn.count_eq_length.symm rfl) rfl rfl

/-- The table that leads from each byte of a list to its number. -/
theorem find_number {l : List (UInt8 × Tree)} (hord : OrderedBy Prod.fst l) {w : Nat} {b : UInt8}
    {i : Fin w} :
    (List.finRange w).find? (fun j => (l[j.val]?.map Prod.fst) == some b) = some i ↔
      ∃ h : i.val < l.length, l[i.val].1 = b := by
  have hiff : ∀ j : Fin w, (((l[j.val]?.map Prod.fst) == some b) = true ↔
      ∃ h : j.val < l.length, l[j.val].1 = b) := by
    intro j
    rw [beq_iff_eq, Option.map_eq_some_iff]
    simp only [List.getElem?_eq_some_iff]
    constructor
    · rintro ⟨e, ⟨h, rfl⟩, hb⟩
      exact ⟨h, hb⟩
    · rintro ⟨h, hb⟩
      exact ⟨_, ⟨h, rfl⟩, hb⟩
  constructor
  · intro hf
    have hi := List.find?_some hf
    exact (hiff i).mp hi
  · rintro ⟨h, hb⟩
    cases hf : (List.finRange w).find? fun j => (l[j.val]?.map Prod.fst) == some b with
    | none => exact absurd ((hiff i).mpr ⟨h, hb⟩) (List.find?_eq_none.mp hf i (List.mem_finRange i))
    | some j =>
        have hj := List.find?_some hf
        obtain ⟨h', hb'⟩ := (hiff j).mp hj
        have he := hord.unique (List.getElem_mem h') (List.getElem_mem h) (hb'.trans hb.symm)
        exact congrArg some (Fin.ext ((List.Nodup.getElem_inj_iff hord.nodup).mp he))

theorem shrink_ok {n : Node} (hn : n.Sound) (hfour : size n ≠ .four)
    (hcount : n.count ≤ (size n).smaller.capacity) :
    ∃ n', shrink n = .ok n' ∧ Relaid n n' (size n).smaller := by
  obtain ⟨⟨stem, layout⟩, child⟩ := n
  have hord := hn.children_ordered
  have hne : ∀ e ∈ RadixIndex.Node.children (⟨⟨stem, layout⟩, child⟩ : Node), e.2 ≠ .empty :=
    fun _ he => hn.child_ne_empty he
  have hlen := hn.count_eq_length.symm
  cases layout with
  | four keys used => exact absurd rfl hfour
  | sixteen keys used =>
      have hused : used.val ≤ 4 := hcount
      obtain ⟨-, hl⟩ := hn.lists rfl rfl (Nat.le_of_lt_succ used.isLt)
      exact ⟨_, dif_pos (Nat.lt_succ_of_le hused),
        .of_keyed hn hlen rfl (lists_padded hl (hlen ▸ hused)) rfl⟩
  | fortyEight table count =>
      have hcount : count ≤ 16 := hcount
      have hroom : count < 17 ∧ (takeChildren ⟨⟨stem, .fortyEight table count⟩, child⟩).length
          ≤ 16 := by
        rw [takeChildren_eq hn]
        exact ⟨Nat.lt_succ_of_le hcount, hlen ▸ hcount⟩
      refine ⟨_, dif_pos hroom, ?_⟩
      rw [takeChildren_eq hn]
      exact .of_keyed hn hlen rfl (lists_map (hlen ▸ hcount)) rfl
  | full count =>
      have hcount : count ≤ 48 := hcount
      have hlen : _ = count := hlen
      have hroom : (takeChildren ⟨⟨stem, .full count⟩, child⟩).length ≤ 48 := by
        rw [takeChildren_eq hn]
        omega
      refine ⟨_, if_pos hroom, ?_⟩
      rw [ofFortyEight, RadixIndex.Node.build_eq, takeChildren_eq hn]
      refine .of_listed (listed_fortyEight hord hne hlen hcount (fun b i => ?_) fun _ => rfl)
        rfl rfl
      simp only [Fin.getElem_fin, Vector.getElem_ofFn, Fin.eta, UInt8.ofFin_toFin,
        find_number hord]

end Moves

end Node

end RadixIndex.Dynamic
