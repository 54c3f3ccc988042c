/-
# Adding and removing a child

What a write does to the children of a node, whatever the layout of the node:

    addChild_ok      a byte that is not there yet gets its child, and the
                     other children stay (`Node.Added`)
    removeChild_ok   a byte that is there loses its child, and the other
                     children stay (`Node.Removed`)

Neither stops with a fault, and both keep the counts of nodes up to date.  A
layout has a least number of children, `Node.Sized`: the points of growth and of
shrinking are chosen so that a node that leaves its layout has enough of them in
the next one.
-/
import RadixIndex.Dynamic.Integrity
import RadixIndex.Proofs.Dynamic.Resize
import RadixIndex.Proofs.Dynamic.Shift
import RadixIndex.Proofs.Dynamic.Stats

namespace RadixIndex.Dynamic

namespace Size

theorem capacity_lt_larger {size : Size} (h : size ≠ .full) :
    size.capacity < size.larger.capacity := by
  cases size <;> first | exact absurd rfl h | decide

/-- A node that grows has enough children for its new size, even without the one that made it
grow. -/
theorem fanOut_larger {size : Size} (h : size ≠ .full) :
    size.larger.fanOut.1 ≤ size.capacity := by
  cases size <;> first | exact absurd rfl h | decide

end Size

namespace Node

/-! ## New nodes -/

theorem new_eq (s : Stem) : new s = ⟨⟨s, .four (Vector.replicate 4 0) 0⟩, fun _ => .empty⟩ :=
  RadixIndex.Node.build_eq _ _

theorem children_new (s : Stem) : RadixIndex.Node.children (new s) = [] := by
  rw [new_eq]
  rfl

theorem sound_new (s : Stem) : (new s).Sound := by
  rw [new_eq]
  have hslots : RadixIndex.Node.slots (⟨⟨s, .four (Vector.replicate 4 0) 0⟩,
      fun _ => .empty⟩ : Node) = Keyed.slots (Vector.replicate 4 0).get 0 := rfl
  exact (RadixIndex.Node.sound_keyed hslots rfl (Nat.zero_le _)).mpr
    ⟨fun _ _ _ h => absurd h (Nat.not_lt_zero _),
      fun _ => iff_of_false (absurd rfl) (Nat.not_lt_zero _)⟩

/-! ## Nodes that differ by one child -/

/-- The node `n'` is `n` with one more child, `t` under `b`. -/
structure Added (n n' : Node) (b : UInt8) (t : Tree) : Prop where
  sound : n'.Sound
  stem_eq : n'.header.stem = n.header.stem
  mem : ∀ e, e ∈ RadixIndex.Node.children n' ↔ e = (b, t) ∨ e ∈ RadixIndex.Node.children n

/-- The node `n'` is `n` without the child under `b`. -/
structure Removed (n n' : Node) (b : UInt8) : Prop where
  sound : n'.Sound
  stem_eq : n'.header.stem = n.header.stem
  mem : ∀ e, e ∈ RadixIndex.Node.children n' ↔ e ∈ RadixIndex.Node.children n ∧ e.1 ≠ b

/-- The node has at least as many children as nodes of its size have. -/
def Sized (n : Node) : Prop := (size n).fanOut.1 ≤ n.count

section

variable {n n' m : Node} {b : UInt8} {t : Tree} {target : Size}

theorem Added.perm (h : Added n n' b t) (hn : n.Sound) (hb : ∀ t, (b, t) ∉ n.children) :
    (RadixIndex.Node.children n').Perm ((b, t) :: n.children) :=
  hn.children_ordered.perm_cons h.sound.children_ordered (hb t) h.mem

theorem Added.count_eq (h : Added n n' b t) (hn : n.Sound) (hb : ∀ t, (b, t) ∉ n.children) :
    n'.count = n.count + 1 := by
  rw [h.sound.count_eq_length, hn.count_eq_length, (h.perm hn hb).length_eq, List.length_cons]

theorem Removed.perm (h : Removed n n' b) (hn : n.Sound) (hb : (b, t) ∈ n.children) :
    (RadixIndex.Node.children n).Perm ((b, t) :: n'.children) :=
  hn.children_ordered.perm_erase h.sound.children_ordered hb h.mem

theorem Removed.count_eq (h : Removed n n' b) (hn : n.Sound) (hb : (b, t) ∈ n.children) :
    n.count = n'.count + 1 := by
  rw [h.sound.count_eq_length, hn.count_eq_length, (h.perm hn hb).length_eq, List.length_cons]

theorem count_le_capacity (hn : n.Sound) : n.count ≤ (size n).capacity := by
  have hsub := List.subperm_of_subset hn.apart fun i _ => List.mem_finRange i
  have hle := hsub.length_le
  rw [List.length_map, List.length_finRange] at hle
  exact hn.count ▸ hle

/-- Where a byte is missing there are not all 256 children. -/
theorem count_lt_of_absent (hn : n.Sound) (hb : ∀ t, (b, t) ∉ n.children) : n.count < 256 := by
  have hmem : ∀ e ∈ n.children, e.1.toFin ≠ b.toFin := fun e he h =>
    hb e.2 (UInt8.toFin_inj.mp h ▸ he)
  have hnodup : (b.toFin :: n.children.map fun e => e.1.toFin).Nodup := by
    refine List.nodup_cons.mpr ⟨?_, ?_⟩
    · intro hin
      obtain ⟨e, he, heb⟩ := List.mem_map.mp hin
      exact hmem e he heb
    · refine List.pairwise_map.mpr (hn.children_ordered.imp ?_)
      intro e e' hlt heq
      exact UInt8.lt_irrefl _ (UInt8.toFin_inj.mp heq ▸ hlt)
  have hle := (List.subperm_of_subset hnodup fun i _ => List.mem_finRange i).length_le
  rw [List.length_cons, List.length_map, List.length_finRange] at hle
  exact hn.count_eq_length ▸ hle

/-! ## Putting a child in its slot -/

theorem sound_of_filled {key : Fin (NodeHeader.width n.header) → UInt8} {used : Nat}
    (hs : n.slots = Keyed.slots key used) (hc : n.count = used)
    (hu : used ≤ NodeHeader.width n.header) (hf : Filled key n.child used) : n.Sound :=
  (RadixIndex.Node.sound_keyed hs hc hu).mpr ⟨hf.ascending, hf.occupied⟩

theorem Sound.filled {key : Fin (NodeHeader.width n.header) → UInt8} {used : Nat}
    (hn : n.Sound) (hs : n.slots = Keyed.slots key used) (hc : n.count = used)
    (hu : used ≤ NodeHeader.width n.header) : Filled key n.child used :=
  ⟨((RadixIndex.Node.sound_keyed hs hc hu).mp hn).1,
    ((RadixIndex.Node.sound_keyed hs hc hu).mp hn).2⟩

theorem freeSlot_isEmpty {w : Nat} {cell : Fin w → Tree} {next : Fin w}
    (h : ∃ i, cell i = .empty) : cell (freeSlot cell next) = .empty := by
  rw [freeSlot]
  split
  · rename_i hnext
    exact RadixIndex.Node.isEmpty_eq_true.mp hnext
  · obtain ⟨i, hi⟩ := h
    cases hf : (List.finRange w).find? fun i => (cell i).isEmpty with
    | none =>
        have := List.find?_eq_none.mp hf i (List.mem_finRange i)
        exact absurd (RadixIndex.Node.isEmpty_eq_true.mpr hi) this
    | some j =>
        have hj := List.find?_some hf
        exact RadixIndex.Node.isEmpty_eq_true.mp hj

/-- A node with room has a slot with nothing in it. -/
theorem exists_vacant (hn : n.Sound) (h : n.count < NodeHeader.width n.header) :
    ∃ i, n.child i = .empty := by
  refine Classical.byContradiction ?_
  intro hno
  have hall : List.finRange (NodeHeader.width n.header) ⊆ n.slots.map Prod.snd := fun i _ =>
    (hn.occupied i).mp fun hi => hno ⟨i, hi⟩
  have hle := (List.subperm_of_subset (List.nodup_finRange _) hall).length_le
  rw [List.length_map, List.length_finRange, ← hn.count] at hle
  omega

theorem setTable_get {table : Vector (Option (Fin 48)) 256} {entry : Option (Fin 48)}
    (c : UInt8) : (setTable table b entry)[c.toFin] = if c = b then entry else table[c.toFin] := by
  have hiff : b.toNat = c.toFin.val ↔ c = b := by
    rw [eq_comm]
    exact UInt8.toNat_inj
  simp only [setTable, Fin.getElem_fin, Vector.getElem_set, hiff]

/-- A node with key bytes and another with one entry more. -/
theorem Added.of_keyed {h' : Header} {child' : Fin (NodeHeader.width h') → Tree}
    {key : Fin (NodeHeader.width n.header) → UInt8} {used : Nat}
    {key' : Fin (NodeHeader.width h') → UInt8} {used' : Nat}
    (hs : n.slots = Keyed.slots key used)
    (hs' : RadixIndex.Node.slots ⟨h', child'⟩ = Keyed.slots key' used')
    (hc : h'.layout.count = used') (hu : used' ≤ NodeHeader.width h')
    (hstem : h'.stem = n.header.stem) (hf : Filled key' child' used')
    (hmem : ∀ b' t', Entry key' child' used' b' t' ↔
      b' = b ∧ t' = t ∨ Entry key n.child used b' t') : Added n (.build h' child') b t := by
  rw [RadixIndex.Node.build_eq]
  refine ⟨sound_of_filled hs' hc hu hf, hstem, ?_⟩
  rintro ⟨b', t'⟩
  rw [RadixIndex.Node.mem_children_keyed hs, RadixIndex.Node.mem_children_keyed hs',
    Prod.mk.injEq]
  exact hmem b' t'

theorem place_fortyEight {stem : Stem} {table : Vector (Option (Fin 48)) 256} {count : Nat}
    {child : Fin 48 → Tree} {slot : Fin 48}
    (hn : RadixIndex.Node.Sound (⟨⟨stem, .fortyEight table count⟩, child⟩ : Node))
    (hb : table[b.toFin] = none) (ht : t ≠ .empty) (hslot : child slot = .empty) :
    Added ⟨⟨stem, .fortyEight table count⟩, child⟩
      ⟨⟨stem, .fortyEight (setTable table b (some slot)) (count + 1)⟩, setCell child slot t⟩
      b t := by
  obtain ⟨hinj, hocc, hcount⟩ := sound_fortyEight.mp hn
  have hfree : ∀ a : UInt8, table[a.toFin] ≠ some slot := fun a ha =>
    (hocc slot).mpr ⟨a, ha⟩ hslot
  have hget : ∀ (a : UInt8) (i : Fin 48), (setTable table b (some slot))[a.toFin] = some i ↔
      a = b ∧ i = slot ∨ table[a.toFin] = some i := by
    intro a i
    rw [setTable_get]
    split
    · rename_i hab
      rw [hab, hb]
      simp [eq_comm]
    · rename_i hab
      simp [hab]
  refine ⟨sound_fortyEight.mpr ⟨?_, ?_, ?_⟩, rfl, ?_⟩
  · intro a c i ha hc
    rcases (hget a i).mp ha with ⟨hab, hi⟩ | hold
    · rcases (hget c i).mp hc with ⟨hcb, -⟩ | hold'
      · rw [hab, hcb]
      · exact absurd (hi ▸ hold') (hfree c)
    · rcases (hget c i).mp hc with ⟨-, hi⟩ | hold'
      · exact absurd (hi ▸ hold) (hfree a)
      · exact hinj a c i hold hold'
  · intro i
    by_cases hi : i = slot
    · rw [hi, setCell_same]
      exact ⟨fun _ => ⟨b, (hget b slot).mpr (Or.inl ⟨rfl, rfl⟩)⟩, fun _ => ht⟩
    · rw [setCell_other _ _ _ hi, hocc]
      refine exists_congr ?_
      intro a
      rw [hget]
      exact ⟨Or.inr, fun h => h.resolve_left fun h => hi h.2⟩
  · have hperm : (Layout.tableSlots (setTable table b (some slot))).Perm
        ((b, slot) :: Layout.tableSlots table) := by
      refine Layout.tableSlots_ordered.perm_cons Layout.tableSlots_ordered
        (fun hin => hfree b (Layout.mem_tableSlots.mp hin)) fun ⟨a, i⟩ => ?_
      rw [Layout.mem_tableSlots, Layout.mem_tableSlots, hget, Prod.mk.injEq]
    rw [hperm.length_eq, List.length_cons, hcount]
  · rintro ⟨a, s⟩
    simp only [mem_children_fortyEight, hget, Prod.mk.injEq]
    constructor
    · rintro ⟨i, ⟨rfl, rfl⟩ | hi, rfl⟩
      · exact Or.inl ⟨rfl, setCell_same _ _ _⟩
      · have hne : i ≠ slot := fun h => hfree a (h ▸ hi)
        exact Or.inr ⟨i, hi, (setCell_other _ _ _ hne).symm⟩
    · rintro (⟨rfl, rfl⟩ | ⟨i, hi, rfl⟩)
      · exact ⟨slot, Or.inl ⟨rfl, rfl⟩, setCell_same _ _ _⟩
      · have hne : i ≠ slot := fun h => hfree a (h ▸ hi)
        exact ⟨i, Or.inr hi, setCell_other _ _ _ hne⟩

theorem place_full {stem : Stem} {count : Nat} {child : Fin 256 → Tree}
    (hn : RadixIndex.Node.Sound (⟨⟨stem, .full count⟩, child⟩ : Node))
    (hb : child b.toFin = .empty) (ht : t ≠ .empty) :
    Added ⟨⟨stem, .full count⟩, child⟩
      ⟨⟨stem, .full (count + 1)⟩, setCell child b.toFin t⟩ b t := by
  have hcell : ∀ (a : UInt8) (s : Tree),
      s ≠ .empty ∧ setCell child b.toFin t a.toFin = s ↔
        a = b ∧ s = t ∨ s ≠ .empty ∧ child a.toFin = s := by
    intro a s
    by_cases hab : a = b
    · rw [hab, setCell_same, hb]
      constructor
      · rintro ⟨-, rfl⟩
        exact Or.inl ⟨rfl, rfl⟩
      · rintro (⟨-, rfl⟩ | ⟨hs, rfl⟩)
        · exact ⟨ht, rfl⟩
        · exact absurd rfl hs
    · rw [setCell_other _ _ _ fun h => hab (UInt8.toFin_inj.mp h)]
      exact ⟨Or.inr, fun h => h.resolve_left fun h => hab h.1⟩
  have hmem : ∀ e, e ∈ RadixIndex.Node.children
      (⟨⟨stem, .full (count + 1)⟩, setCell child b.toFin t⟩ : Node) ↔ e = (b, t) ∨
        e ∈ RadixIndex.Node.children (⟨⟨stem, .full count⟩, child⟩ : Node) := by
    rintro ⟨a, s⟩
    rw [mem_children_full, mem_children_full, hcell, Prod.mk.injEq]
  have habsent : (b, t) ∉ RadixIndex.Node.children (⟨⟨stem, .full count⟩, child⟩ : Node) :=
    fun h => ht ((mem_children_full.mp h).2.symm.trans hb)
  have hperm := hn.children_ordered.perm_cons
    (List.pairwise_map.mpr Direct.slots_ordered) habsent hmem
  refine ⟨sound_full.mpr ?_, rfl, hmem⟩
  have hlen := hperm.length_eq
  rw [List.length_cons, ← hn.count_eq_length] at hlen
  exact hlen.symm.trans (List.length_map _)

theorem absent_keyed {key : Fin (NodeHeader.width n.header) → UInt8} {used : Nat}
    (hs : n.slots = Keyed.slots key used) (hb : ∀ t, (b, t) ∉ n.children)
    (i : Fin (NodeHeader.width n.header)) (hi : i.val < used) : key i ≠ b := fun hkey =>
  hb _ ((RadixIndex.Node.mem_children_keyed hs).mpr ⟨i, hi, hkey, rfl⟩)

theorem insertKey_get {w : Nat} {keys : Vector UInt8 w} {pos used : Nat} :
    (insertKey keys pos used b).get = shiftIn keys.get pos used b :=
  funext (get_ofFn _)

theorem place_ok (hn : n.Sound) (hb : ∀ t, (b, t) ∉ n.children) (ht : t ≠ .empty)
    (hroom : n.count < (size n).capacity) :
    ∃ n', place b t n = .ok n' ∧ size n' = size n ∧ Added n n' b t := by
  obtain ⟨⟨stem, layout⟩, child⟩ := n
  cases layout with
  | four keys used | sixteen keys used =>
      have hfilled : Filled keys.get child used := Sound.filled hn rfl rfl (Nat.le_of_lt hroom)
      obtain ⟨hf, hmem⟩ := place_keyed hfilled hroom (absent_keyed rfl hb) ht rfl
      rw [← insertKey_get] at hf hmem
      exact ⟨_, dif_pos hroom, rfl, .of_keyed rfl rfl rfl hroom rfl hf hmem⟩
  | fortyEight table count =>
      have hcount : count < 48 := hroom
      refine ⟨_, dif_pos hcount, rfl, ?_⟩
      rw [ofFortyEight, RadixIndex.Node.build_eq]
      refine place_fortyEight hn ?_ ht (freeSlot_isEmpty (exists_vacant hn hcount))
      cases hget : table[b.toFin] with
      | none => rfl
      | some i => exact absurd (mem_children_fortyEight.mpr ⟨i, hget, rfl⟩) (hb _)
  | full count =>
      refine ⟨_, rfl, rfl, ?_⟩
      rw [ofFull, RadixIndex.Node.build_eq]
      refine place_full hn ?_ ht
      refine Classical.byContradiction ?_
      intro hne
      exact hb _ (mem_children_full.mpr ⟨hne, rfl⟩)

theorem Relaid.added (h : Relaid n m target) (ha : Added m n' b t) : Added n n' b t :=
  ⟨ha.sound, ha.stem_eq.trans h.stem_eq, fun e => h.children_eq ▸ ha.mem e⟩

theorem Relaid.count_eq (h : Relaid n m target) (hn : n.Sound) : m.count = n.count := by
  rw [h.sound.count_eq_length, hn.count_eq_length, h.children_eq]

/-- The new child makes up for one of the children that the node may lack. -/
theorem addChild_ok (hn : n.Sound) (hb : ∀ t, (b, t) ∉ n.children) (ht : t ≠ .empty)
    (s : Stats) :
    ∃ n', addChild n b t (.one (size n) + s) = .ok (n', .one (size n') + s) ∧
      Added n n' b t ∧ (∀ lacking, (size n).fanOut.1 ≤ n.count + 1 + lacking →
        (size n').fanOut.1 ≤ n'.count + lacking) ∧
          size n' = if isFull n then (size n).larger else size n := by
  rw [addChild]
  by_cases hfull : isFull n
  · rw [if_pos hfull]
    have hcap : (size n).capacity ≤ n.count := of_decide_eq_true hfull
    have hlt := count_lt_of_absent hn hb
    have hnot : size n ≠ .full := fun h => by
      rw [h] at hcap
      exact Nat.not_lt.mpr hcap hlt
    obtain ⟨larger, hgrow, hrelaid⟩ := grow_ok hn hnot
    have hcount := hrelaid.count_eq hn
    have hle := count_le_capacity hn
    have hroom : larger.count < (size larger).capacity := by
      rw [hcount, hrelaid.size_eq]
      exact Nat.lt_of_le_of_lt hle (Size.capacity_lt_larger hnot)
    have hb' : ∀ t, (b, t) ∉ larger.children := hrelaid.children_eq.symm ▸ hb
    obtain ⟨n', hplace, hsize', hadded⟩ := place_ok hrelaid.sound hb' ht hroom
    refine ⟨n', ?_, hrelaid.added hadded, ?_, ?_⟩
    · rw [hgrow, ok_bind, Stats.replace_one_add, ok_bind, hplace, ok_bind, hsize', pure_eq_ok]
    · intro lacking _
      rw [hsize', hadded.count_eq hrelaid.sound hb', hrelaid.size_eq, hcount]
      have := Size.fanOut_larger hnot
      omega
    · rw [if_pos hfull, hsize', hrelaid.size_eq]
  · rw [if_neg hfull]
    have hroom : n.count < (size n).capacity := by
      simpa [isFull] using hfull
    obtain ⟨n', hplace, hsize', hadded⟩ := place_ok hn hb ht hroom
    refine ⟨n', ?_, hadded, ?_, ?_⟩
    · rw [hplace, ok_bind, hsize', pure_eq_ok]
    · intro lacking h
      rwa [hsize', hadded.count_eq hn hb]
    · rw [if_neg hfull, hsize']

/-! ## Taking a child out of its slot -/

/-- A node with key bytes and another with one entry less. -/
theorem Removed.of_keyed {h' : Header} {child' : Fin (NodeHeader.width h') → Tree}
    {key : Fin (NodeHeader.width n.header) → UInt8} {used : Nat}
    {key' : Fin (NodeHeader.width h') → UInt8} {used' : Nat}
    (hs : n.slots = Keyed.slots key used)
    (hs' : RadixIndex.Node.slots ⟨h', child'⟩ = Keyed.slots key' used')
    (hc : h'.layout.count = used') (hu : used' ≤ NodeHeader.width h')
    (hstem : h'.stem = n.header.stem) (hf : Filled key' child' used')
    (hmem : ∀ b' t', Entry key' child' used' b' t' ↔
      Entry key n.child used b' t' ∧ b' ≠ b) : Removed n (.build h' child') b := by
  rw [RadixIndex.Node.build_eq]
  refine ⟨sound_of_filled hs' hc hu hf, hstem, ?_⟩
  rintro ⟨b', t'⟩
  rw [RadixIndex.Node.mem_children_keyed hs, RadixIndex.Node.mem_children_keyed hs']
  exact hmem b' t'

theorem remove_fortyEight {stem : Stem} {table : Vector (Option (Fin 48)) 256} {count : Nat}
    {child : Fin 48 → Tree} {slot : Fin 48}
    (hn : RadixIndex.Node.Sound (⟨⟨stem, .fortyEight table count⟩, child⟩ : Node))
    (hb : table[b.toFin] = some slot) :
    Removed ⟨⟨stem, .fortyEight table count⟩, child⟩
      ⟨⟨stem, .fortyEight (setTable table b none) (count - 1)⟩, setCell child slot .empty⟩ b := by
  obtain ⟨hinj, hocc, hcount⟩ := sound_fortyEight.mp hn
  have hget : ∀ (a : UInt8) (i : Fin 48), (setTable table b none)[a.toFin] = some i ↔
      table[a.toFin] = some i ∧ a ≠ b := by
    intro a i
    rw [setTable_get]
    split
    · rename_i hab
      simp [hab]
    · rename_i hab
      simp [hab]
  -- No other byte leads to the slot that is emptied.
  have hother : ∀ (a : UInt8) (i : Fin 48), table[a.toFin] = some i → a ≠ b → i ≠ slot :=
    fun a i ha hab hi => hab (hinj a b slot (hi ▸ ha) hb)
  refine ⟨sound_fortyEight.mpr ⟨?_, ?_, ?_⟩, rfl, ?_⟩
  · intro a c i ha hc
    exact hinj a c i ((hget a i).mp ha).1 ((hget c i).mp hc).1
  · intro i
    by_cases hi : i = slot
    · rw [hi, setCell_same]
      refine ⟨fun h => absurd rfl h, ?_⟩
      rintro ⟨a, ha⟩
      obtain ⟨hold, hab⟩ := (hget a slot).mp ha
      exact absurd rfl (hother a slot hold hab)
    · rw [setCell_other _ _ _ hi, hocc]
      refine exists_congr ?_
      intro a
      rw [hget]
      refine ⟨fun ha => ⟨ha, fun hab => hi ?_⟩, And.left⟩
      rw [hab, hb] at ha
      exact (Option.some.inj ha).symm
  · have hperm : (Layout.tableSlots table).Perm
        ((b, slot) :: Layout.tableSlots (setTable table b none)) := by
      refine Layout.tableSlots_ordered.perm_erase Layout.tableSlots_ordered
        (Layout.mem_tableSlots.mpr hb) fun ⟨a, i⟩ => ?_
      rw [Layout.mem_tableSlots, Layout.mem_tableSlots, hget]
    rw [hcount, hperm.length_eq, List.length_cons, Nat.add_sub_cancel]
  · rintro ⟨a, s⟩
    simp only [mem_children_fortyEight, hget]
    constructor
    · rintro ⟨i, ⟨ha, hab⟩, rfl⟩
      exact ⟨⟨i, ha, (setCell_other _ _ _ (hother a i ha hab)).symm⟩, hab⟩
    · rintro ⟨⟨i, ha, rfl⟩, hab⟩
      exact ⟨i, ⟨ha, hab⟩, setCell_other _ _ _ (hother a i ha hab)⟩

theorem remove_full {stem : Stem} {count : Nat} {child : Fin 256 → Tree}
    (hn : RadixIndex.Node.Sound (⟨⟨stem, .full count⟩, child⟩ : Node))
    (hb : child b.toFin ≠ .empty) :
    Removed ⟨⟨stem, .full count⟩, child⟩
      ⟨⟨stem, .full (count - 1)⟩, setCell child b.toFin .empty⟩ b := by
  have hmem : ∀ e, e ∈ RadixIndex.Node.children
      (⟨⟨stem, .full (count - 1)⟩, setCell child b.toFin .empty⟩ : Node) ↔
        e ∈ RadixIndex.Node.children (⟨⟨stem, .full count⟩, child⟩ : Node) ∧ e.1 ≠ b := by
    rintro ⟨a, s⟩
    rw [mem_children_full, mem_children_full]
    by_cases hab : a = b
    · rw [hab, setCell_same]
      exact ⟨fun ⟨hs, h⟩ => absurd h.symm hs, fun h => absurd rfl h.2⟩
    · rw [setCell_other _ _ _ fun h => hab (UInt8.toFin_inj.mp h)]
      exact ⟨fun h => ⟨h, hab⟩, And.left⟩
  have hperm := hn.children_ordered.perm_erase (List.pairwise_map.mpr Direct.slots_ordered)
    (mem_children_full.mpr ⟨hb, rfl⟩) hmem
  refine ⟨sound_full.mpr ?_, rfl, hmem⟩
  have hlen := hperm.length_eq
  rw [List.length_cons, ← hn.count_eq_length] at hlen
  have hlen : count = _ + 1 := hlen
  rw [hlen, Nat.add_sub_cancel]
  exact List.length_map _

theorem eraseKey_get {w : Nat} {keys : Vector UInt8 w} {pos used : Nat} (j : Fin w) :
    (eraseKey keys pos used).get j = shiftOut keys.get pos used (keys.get j) j :=
  get_ofFn _ j

theorem extract_ok (hn : n.Sound) (hb : (b, t) ∈ n.children) :
    ∃ m n', extract b n = some (t, m) ∧ countDown m = .ok n' ∧ size n' = size n ∧
      Removed n n' b := by
  have hpos : n.count ≠ 0 := by
    rw [hn.count_eq_length]
    exact Nat.ne_of_gt (List.length_pos_of_mem hb)
  obtain ⟨i, hfind, hi⟩ := hn.exists_find hb
  have hslot := hn.find_eq_some.mp hfind
  obtain ⟨⟨stem, layout⟩, child⟩ := n
  cases layout with
  | four keys used | sixteen keys used =>
      have hle := Nat.le_of_lt_succ used.isLt
      have hfilled : Filled keys.get child used := Sound.filled hn rfl rfl hle
      obtain ⟨hused, hkey⟩ := Keyed.mem_slots.mp hslot
      obtain ⟨hf, hmem⟩ := erase_keyed hfilled hle hused eraseKey_get
      have hnot : used ≠ 0 := fun h => hpos (congrArg Fin.val h)
      have hfind : Keyed.find keys.get used b = some i := hfind
      have hi : child i = t := hi
      rw [hkey] at hmem
      rw [extract, hfind, Option.map_some, hi]
      exact ⟨_, _, rfl, if_neg hnot, rfl,
        .of_keyed rfl rfl rfl (Nat.le_trans (Nat.sub_le ..) hle) rfl hf hmem⟩
  | fortyEight table count =>
      have hget : table.get b.toFin = some i := Layout.mem_tableSlots.mp hslot
      have hextract : extract b ⟨⟨stem, .fortyEight table count⟩, child⟩ = some (t,
          ⟨⟨stem, .fortyEight (setTable table b none) count⟩, setCell child i .empty⟩) := by
        rw [extract, hget, Option.map_some, ofFortyEight, RadixIndex.Node.build_eq]
        exact congrArg (fun x => some (x, _)) hi
      exact ⟨_, _, hextract, if_neg hpos, rfl, remove_fortyEight hn hget⟩
  | full count =>
      obtain ⟨hne, hchild⟩ := mem_children_full.mp hb
      have hextract : extract b ⟨⟨stem, .full count⟩, child⟩ = some (t,
          ⟨⟨stem, .full count⟩, setCell child b.toFin .empty⟩) := by
        rw [extract, hchild, ofFull, RadixIndex.Node.build_eq]
      exact ⟨_, _, hextract, if_neg hpos, rfl, remove_full hn (hchild ▸ hne)⟩

/-- A node that is due to shrink fits into its new size and has enough children there. -/
theorem shrinksAt_fits {size : Size} {k : Nat} (h : shrinksAt size k = true) :
    size ≠ .four ∧ k ≤ size.smaller.capacity ∧ size.smaller.fanOut.1 ≤ k := by
  unfold shrinksAt at h
  split at h
  · exact ⟨nofun, by decide, by decide⟩
  · exact ⟨nofun, by decide, by decide⟩
  · exact ⟨nofun, by decide, by decide⟩
  · exact absurd h Bool.false_ne_true

/-- A node that is due to shrink has too few children for its size. -/
theorem shrinksAt_lt {size : Size} {k : Nat} (h : shrinksAt size k = true) :
    k < size.fanOut.1 := by
  unfold shrinksAt at h
  split at h
  · decide
  · decide
  · decide
  · exact absurd h Bool.false_ne_true

/-- A node that loses a child and does not shrink keeps enough children, but for a
node of four with two. -/
theorem fanOut_of_not_shrinksAt {size : Size} {k : Nat} (h : shrinksAt size k ≠ true)
    (hk : size.fanOut.1 ≤ k + 1) : size.fanOut.1 ≤ k ∨ size = .four ∧ k = 1 := by
  cases size with
  | four =>
      have hk : 2 ≤ k + 1 := hk
      by_cases h1 : k = 1
      · exact Or.inr ⟨rfl, h1⟩
      · exact Or.inl (show 2 ≤ k by omega)
  | sixteen =>
      have hk : 4 ≤ k + 1 := hk
      refine Or.inl (show 4 ≤ k from ?_)
      refine Nat.lt_of_le_of_ne (Nat.le_of_succ_le_succ hk) fun he => h (he ▸ rfl)
  | fortyEight =>
      have hk : 13 ≤ k + 1 := hk
      refine Or.inl (show 13 ≤ k from ?_)
      refine Nat.lt_of_le_of_ne (Nat.le_of_succ_le_succ hk) fun he => h (he ▸ rfl)
  | full =>
      have hk : 38 ≤ k + 1 := hk
      refine Or.inl (show 38 ≤ k from ?_)
      refine Nat.lt_of_le_of_ne (Nat.le_of_succ_le_succ hk) fun he => h (he ▸ rfl)

theorem removeChild_of_extract {s : Stats} (h : extract b n = some (t, m)) (ht : t ≠ .empty) :
    removeChild n b s = (do
      let n ← countDown m
      if shrinksAt (size n) n.count then
        let smaller ← shrink n
        return (t, smaller, ← s.replace (size n) (size smaller))
      else
        return (t, n, s)) := by
  rw [removeChild, h]
  cases t with
  | empty => exact absurd rfl ht
  | leaf r => rfl
  | node h c => rfl

theorem Removed.relaid (h : Removed n m b) (hr : Relaid m n' target) : Removed n n' b :=
  ⟨hr.sound, hr.stem_eq.trans h.stem_eq, fun e => hr.children_eq ▸ h.mem e⟩

/-- Removing a child that is there shrinks the node at the points of shrinking. -/
theorem removeChild_answers (hn : n.Sound) (hb : (b, t) ∈ n.children) (s : Stats) :
    ∃ n', removeChild n b (.one (size n) + s) = .ok (t, n', .one (size n') + s) ∧
      Removed n n' b ∧
        size n' = if shrinksAt (size n) n'.count then (size n).smaller else size n := by
  obtain ⟨m, less, hextract, hdown, hsize, hremoved⟩ := extract_ok hn hb
  rw [removeChild_of_extract hextract (hn.child_ne_empty hb), hdown, ok_bind, ← hsize]
  by_cases hshrinks : shrinksAt (size less) less.count
  · rw [if_pos hshrinks]
    obtain ⟨hfour, hroom, -⟩ := shrinksAt_fits hshrinks
    obtain ⟨n', hshrink, hrelaid⟩ := shrink_ok hremoved.sound hfour hroom
    refine ⟨n', ?_, hremoved.relaid hrelaid, ?_⟩
    · rw [hshrink, ok_bind, Stats.replace_one_add, ok_bind, pure_eq_ok]
    · rw [hrelaid.count_eq hremoved.sound, if_pos hshrinks, hrelaid.size_eq]
  · rw [if_neg hshrinks]
    exact ⟨less, rfl, hremoved, (if_neg hshrinks).symm⟩

theorem removeChild_ok (hn : n.Sound) (hsized : Sized n) (hb : (b, t) ∈ n.children)
    (s : Stats) :
    ∃ n', removeChild n b (.one (size n) + s) = .ok (t, n', .one (size n') + s) ∧
      Removed n n' b ∧ (Sized n' ∨ size n' = .four ∧ n'.count = 1) ∧
        ((size n).fanOut.1 ≤ n'.count → size n' = size n) := by
  obtain ⟨n', hremove, hremoved, hsize⟩ := removeChild_answers hn hb s
  refine ⟨n', hremove, hremoved, ?_⟩
  by_cases hshrinks : shrinksAt (size n) n'.count
  · rw [if_pos hshrinks] at hsize
    refine ⟨Or.inl ?_, fun hkeep => absurd hkeep (Nat.not_le.mpr (shrinksAt_lt hshrinks))⟩
    rw [Sized, hsize]
    exact (shrinksAt_fits hshrinks).2.2
  · rw [if_neg hshrinks] at hsize
    have hleast : (size n).fanOut.1 ≤ n'.count + 1 := hremoved.count_eq hn hb ▸ hsized
    refine ⟨?_, fun _ => hsize⟩
    rw [Sized, hsize]
    exact fanOut_of_not_shrinksAt hshrinks hleast

end

end Node

end RadixIndex.Dynamic
