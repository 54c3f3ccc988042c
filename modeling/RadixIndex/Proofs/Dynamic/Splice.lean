/-
# Stems cut and joined

When a key leaves the stem of a node, the stem is cut in two at a branch byte; when a node is
left with one child, its stem, the byte and the stem of the child are joined.  Both keep nine
bytes and the length of what they make, and the bytes that are missing come from a key or from
behind in the window.  Whatever the lengths are, and whatever is left over in the windows,

    cutting    makes of a stem what is before the branch byte and what comes after it
    joining    makes of two stems the one stem with the byte between them

so a node that is put below a new one and takes its place again is the same node
(`Node.splices_exactly`).  Nothing is asked of the node but that it carries its stem
(`Node.Carries`).

The argument is in `Window.copyTo_fills`: of a window only the bytes matter that have been
filled in so far, and copying fills in the next ones.
-/
import RadixIndex.Dynamic.Window
import RadixIndex.Proofs.Dynamic.Erase
import RadixIndex.Proofs.Dynamic.Fork

namespace RadixIndex.Dynamic

/-! ## Windows -/

namespace Window

/-- The first `used` bytes are those of `whole`; the others do not matter. -/
def Fills (bytes : Vector UInt8 inlineCapacity) (whole : Key) (used : Nat) : Prop :=
  bytes.toList.take used = whole.take used

variable {bytes : Vector UInt8 inlineCapacity} {whole stem rest : Key} {used : Nat} {byte : UInt8}
  {w parent : Window}

theorem fills_zero : Fills bytes whole 0 := rfl

theorem length_take_bytes (bytes : Vector UInt8 inlineCapacity) {k : Nat}
    (hk : k ≤ inlineCapacity) : (bytes.toList.take k).length = k :=
  List.length_take_of_le (Vector.length_toList ▸ hk)

/-- Copying the bytes that come next fills more of the window. -/
theorem copyTo_fills (h : Fills bytes whole used) (part : Key)
    (hroom : used + part.length ≤ inlineCapacity) (hpart : part <+: whole.drop used) :
    ∃ bytes', copyTo bytes used part = .ok bytes' ∧ Fills bytes' whole (used + part.length) := by
  rw [copyTo, dif_pos hroom]
  refine ⟨_, rfl, ?_⟩
  have hused := length_take_bytes bytes (Nat.le_trans (Nat.le_add_right _ _) hroom)
  have hcopied : (bytes.toList.take used ++ part).length = used + part.length := by
    rw [List.length_append, hused]
  calc (bytes.toList.take used ++ part ++ bytes.toList.drop (used + part.length)).take
        (used + part.length)
      = bytes.toList.take used ++ part := List.take_left' hcopied
    _ = whole.take used ++ (whole.drop used).take part.length := by
        rw [h, ← List.prefix_iff_eq_take.mp hpart]
    _ = whole.take (used + part.length) := List.take_add.symm

/-- The bytes that are filled in are a beginning of the stem. -/
theorem Fills.beginning (h : Fills bytes whole used) : bytes.toList.take used <+: whole := by
  rw [h]
  exact List.take_prefix _ _

theorem Fills.mono (h : Fills bytes whole used) {k : Nat} (hk : k ≤ used) :
    Fills bytes whole k := by
  have hcut := congrArg (List.take k) h
  rwa [List.take_take, List.take_take, Nat.min_eq_left hk] at hcut

/-- A window that is filled as far as it reaches keeps the stem. -/
theorem toStem_of_fills (hlength : whole.length < 2 ^ 32)
    (h : Fills bytes whole (min whole.length inlineCapacity)) :
    toStem ⟨UInt32.ofNat whole.length, bytes⟩ = Stem.of whole := by
  have hnat : (UInt32.ofNat whole.length).toNat = whole.length :=
    UInt32.toNat_ofNat_of_lt' hlength
  refine Stem.eq_of_iff.mpr ⟨?_, hnat.symm⟩
  show bytes.toList.take (min (UInt32.ofNat whole.length).toNat inlineCapacity) <+: whole
  rw [hnat]
  exact h.beginning

/-- What a window that keeps a stem is filled with. -/
theorem fills_of_toStem (h : w.toStem = Stem.of whole) :
    w.length.toNat = whole.length ∧ Fills w.bytes whole (min whole.length inlineCapacity) := by
  have hlength : w.length.toNat = whole.length := congrArg Stem.length h
  refine ⟨hlength, ?_⟩
  have hinline : w.inline = whole.take inlineCapacity := congrArg Stem.inline h
  rw [inline, hlength] at hinline
  rw [Fills, hinline, List.take_eq_take_min, Nat.min_comm]

/-- A stem copied to the beginning of a window. -/
theorem copyTo_begin (bytes : Vector UInt8 inlineCapacity) (hlength : whole.length < 2 ^ 32) :
    ∃ bytes', copyTo bytes 0 (whole.take inlineCapacity) = .ok bytes' ∧
      toStem ⟨UInt32.ofNat whole.length, bytes'⟩ = Stem.of whole := by
  have hkept : (whole.take inlineCapacity).length = min whole.length inlineCapacity := by
    rw [List.length_take, Nat.min_comm]
  have hnew : Fills bytes whole 0 := fills_zero
  obtain ⟨bytes', hcopy, hfills⟩ :=
    copyTo_fills hnew (whole.take inlineCapacity) (by omega) (List.take_prefix _ _)
  rw [Nat.zero_add, hkept] at hfills
  exact ⟨bytes', hcopy, toStem_of_fills hlength hfills⟩

/-! ## The three operations -/

/-- A stem whose beginning is there can be put into any window. -/
theorem set_ok (w : Window) {given : Key} (hlength : whole.length < 2 ^ 32)
    (hgiven : whole.take inlineCapacity <+: given) :
    ∃ w', w.set given whole.length = .ok w' ∧ w'.toStem = Stem.of whole := by
  have hkept : min whole.length inlineCapacity = (whole.take inlineCapacity).length := by
    rw [List.length_take, Nat.min_comm]
  obtain ⟨bytes, hcopy, hstem⟩ := copyTo_begin w.bytes hlength
  refine ⟨_, ?_, hstem⟩
  rw [set, hkept, Key.slice_of_le (Nat.zero_le _) hgiven.length_le, ok_bind,
    ← List.prefix_iff_eq_take.mp hgiven, List.drop_zero, hcopy, ok_bind, pure_eq_ok]

/-- In a window that keeps the whole stem, the byte and what comes after it are read. -/
theorem reads_kept (hshort : whole.length ≤ inlineCapacity) (h : Fills bytes whole whole.length)
    {mismatch : Nat} (hm : mismatch < whole.length) :
    Key.byteAt bytes.toList mismatch = .ok whole[mismatch] ∧
      Key.slice bytes.toList (mismatch + 1) whole.length = .ok (whole.drop (mismatch + 1)) := by
  rw [Fills, List.take_length] at h
  have hget : bytes.toList[mismatch]? = some whole[mismatch] := by
    rw [← List.getElem?_eq_getElem hm, ← List.getElem?_take_of_lt hm, h]
  have hreach : whole.length ≤ bytes.toList.length := by
    rw [Vector.length_toList]
    exact hshort
  exact ⟨by rw [Key.byteAt, hget], by rw [Key.slice_of_le hm hreach, h]⟩

/-- What comes after the byte is read from the whole stem, as far as the window reaches. -/
theorem slice_rest {mismatch : Nat} (hm : mismatch < whole.length) :
    Key.slice whole (mismatch + 1)
        (mismatch + 1 + min (whole.drop (mismatch + 1)).length inlineCapacity) =
      .ok ((whole.drop (mismatch + 1)).take inlineCapacity) := by
  have hreach : mismatch + 1 + min (whole.drop (mismatch + 1)).length inlineCapacity ≤
      whole.length := by
    rw [List.length_drop]
    omega
  rw [Key.slice_of_le (Nat.le_add_right _ _) hreach, List.drop_take, Nat.add_sub_cancel_left,
    Nat.min_comm, ← List.take_eq_take_min]

/-- Cutting a stem leaves what comes after the branch byte. -/
theorem cut_ok (hw : w.toStem = Stem.of whole) {mismatch : Nat} (hm : mismatch < whole.length)
    {stem : Except Fault Key} (hstem : inlineCapacity < whole.length → stem = .ok whole) :
    ∃ rest, w.cut mismatch stem = .ok (whole[mismatch], rest) ∧
      rest.toStem = Stem.of (whole.drop (mismatch + 1)) := by
  obtain ⟨hlength, hfills⟩ := fills_of_toStem hw
  have hremaining : whole.length - mismatch - 1 = (whole.drop (mismatch + 1)).length := by
    rw [List.length_drop, Nat.sub_sub]
  have hbound : (whole.drop (mismatch + 1)).length < 2 ^ 32 :=
    Nat.lt_of_le_of_lt (List.drop_sublist _ _).length_le (hlength ▸ w.length.toNat_lt)
  obtain ⟨bytes, hcopy, hrest⟩ := copyTo_begin w.bytes hbound
  refine ⟨_, ?_, hrest⟩
  rw [cut, hlength, if_neg (Nat.not_le.mpr hm), hremaining]
  dsimp only
  by_cases hshort : whole.length ≤ inlineCapacity
  · -- The bytes are moved inside the window.
    rw [Nat.min_eq_left hshort] at hfills
    obtain ⟨hbyte, hslice⟩ := reads_kept hshort hfills hm
    rw [List.take_of_length_le (by rw [List.length_drop]; omega)] at hcopy
    rw [if_pos hshort, hbyte, ok_bind, hslice, ok_bind, hcopy, ok_bind, pure_eq_ok]
  · -- The bytes come from the key.
    rw [if_neg hshort, hstem (Nat.not_le.mp hshort), ok_bind, slice_rest hm, ok_bind, hcopy,
      ok_bind, Key.byteAt_of_lt hm, ok_bind, pure_eq_ok]

/-- What comes next is copied as far as there is room. -/
theorem copyNext_fills (h : Fills bytes whole used) (hused : used ≤ inlineCapacity) (part : Key)
    (hpart : used < inlineCapacity →
      used + part.length ≤ inlineCapacity ∧ part <+: whole.drop used) :
    ∃ bytes', copyNext bytes used part =
        .ok (bytes', min (used + part.length) inlineCapacity) ∧
      Fills bytes' whole (min (used + part.length) inlineCapacity) := by
  by_cases hroom : used < inlineCapacity
  · obtain ⟨hfits, hnext⟩ := hpart hroom
    obtain ⟨bytes', hcopy, hbytes⟩ := copyTo_fills h part hfits hnext
    rw [Nat.min_eq_left hfits]
    exact ⟨bytes', by rw [copyNext, if_pos hroom, hcopy, ok_bind, pure_eq_ok], hbytes⟩
  · obtain rfl : used = inlineCapacity := Nat.le_antisymm hused (Nat.not_lt.mp hroom)
    rw [Nat.min_eq_right (Nat.le_add_right _ _)]
    exact ⟨bytes, if_neg hroom, h⟩

/-- The stem of the parent is copied into a new window. -/
theorem copyNext_stem (hparent : parent.toStem = Stem.of stem) (tail : Key) :
    ∃ bytes, copyNext empty.bytes 0
        (parent.bytes.toList.take (min stem.length inlineCapacity)) =
          .ok (bytes, min stem.length inlineCapacity) ∧
      Fills bytes (stem ++ tail) (min stem.length inlineCapacity) := by
  have hlength := length_take_bytes parent.bytes (Nat.min_le_right stem.length inlineCapacity)
  have hnew : Fills empty.bytes (stem ++ tail) 0 := fills_zero
  have hstem := (fills_of_toStem hparent).2.beginning.trans (List.prefix_append stem tail)
  obtain ⟨bytes, hcopy, hfills⟩ := copyNext_fills hnew (Nat.zero_le _) _ fun _ =>
    ⟨by omega, hstem⟩
  rw [hlength, Nat.zero_add, Nat.min_assoc, Nat.min_self] at hcopy hfills
  exact ⟨bytes, hcopy, hfills⟩

/-- After the stem of the parent the byte is copied. -/
theorem copyNext_byte
    (h : Fills bytes (stem ++ byte :: rest) (min stem.length inlineCapacity)) :
    ∃ bytes', copyNext bytes (min stem.length inlineCapacity) [byte] =
        .ok (bytes', min (stem.length + 1) inlineCapacity) ∧
      Fills bytes' (stem ++ byte :: rest) (min (stem.length + 1) inlineCapacity) := by
  obtain ⟨bytes', hcopy, hfills⟩ := copyNext_fills h (Nat.min_le_right _ _) [byte] (by
    intro hroom
    have hshort : min stem.length inlineCapacity = stem.length := by omega
    rw [hshort] at hroom ⊢
    rw [List.drop_left]
    exact ⟨hroom, List.prefix_append [byte] rest⟩)
  have hused : min (min stem.length inlineCapacity + 1) inlineCapacity =
      min (stem.length + 1) inlineCapacity := by omega
  rw [List.length_singleton, hused] at hcopy hfills
  exact ⟨bytes', hcopy, hfills⟩

/-- After the byte the own stem is copied, as much of it as there is room for. -/
theorem copyNext_rest (hw : w.toStem = Stem.of rest)
    (h : Fills bytes (stem ++ byte :: rest) (min (stem.length + 1) inlineCapacity)) :
    ∃ bytes' used, copyNext bytes (min (stem.length + 1) inlineCapacity)
        (w.bytes.toList.take
          (min rest.length (inlineCapacity - min (stem.length + 1) inlineCapacity))) =
          .ok (bytes', used) ∧
      Fills bytes' (stem ++ byte :: rest)
        (min (stem ++ byte :: rest).length inlineCapacity) := by
  have hlength := length_take_bytes w.bytes
    (show min rest.length (inlineCapacity - min (stem.length + 1) inlineCapacity) ≤ _ by omega)
  have hown : w.bytes.toList.take
      (min rest.length (inlineCapacity - min (stem.length + 1) inlineCapacity)) <+: rest :=
    ((fills_of_toStem hw).2.mono (by omega)).beginning
  generalize w.bytes.toList.take _ = part at hlength hown ⊢
  obtain ⟨bytes', hcopy, hfills⟩ := copyNext_fills h (Nat.min_le_right _ _) part (by
    intro hroom
    have hshort : min (stem.length + 1) inlineCapacity = stem.length + 1 := by omega
    have hdrop : (stem ++ byte :: rest).drop (stem.length + 1) = rest := by
      rw [← List.drop_drop, List.drop_left]
      rfl
    refine ⟨by omega, ?_⟩
    rw [hshort, hdrop]
    exact hown)
  refine ⟨bytes', _, hcopy, hfills.mono ?_⟩
  rw [hlength, List.length_append, List.length_cons]
  omega

/-- Absorbing a stem and a byte puts them before the stem, as far as the window reaches. -/
theorem absorb_ok (hparent : parent.toStem = Stem.of stem) (hw : w.toStem = Stem.of rest)
    (hroom : stem.length + 1 + rest.length < 2 ^ 32) (byte : UInt8) :
    ∃ merged, w.absorb parent byte = .ok merged ∧
      merged.toStem = Stem.of (stem ++ byte :: rest) := by
  obtain ⟨first, hfirst, hfills⟩ := copyNext_stem hparent (byte :: rest)
  obtain ⟨second, hsecond, hfills⟩ := copyNext_byte hfills
  obtain ⟨third, used, hthird, hfills⟩ := copyNext_rest hw hfills
  have hwhole : (stem ++ byte :: rest).length = rest.length + (stem.length + 1) := by
    rw [List.length_append, List.length_cons]
    omega
  have hfits : rest.length + (stem.length + 1) < UInt32.size := by
    rw [Nat.add_comm]
    exact hroom
  refine ⟨⟨UInt32.ofNat (stem ++ byte :: rest).length, third⟩, ?_,
    toStem_of_fills (hwhole ▸ hfits) hfills⟩
  rw [absorb, (fills_of_toStem hparent).1, (fills_of_toStem hw).1, hfirst, ok_bind]
  dsimp only
  rw [hsecond, ok_bind]
  dsimp only
  rw [hthird, ok_bind, if_pos hfits, hwhole, pure_eq_ok]

/-! ## There and back -/

/-- The window is cut in two at `mismatch`: `above` gets what comes before the byte that is
there, and `below`, in the place of the window, what comes after it.  Absorbing the one and the
byte makes the other the window again. -/
structure Parts (w : Window) (mismatch : Nat) (byte : UInt8) (stem : Except Fault Key)
    (above below : Window) : Prop where
  set_eq : empty.set w.inline mismatch = .ok above
  cut_eq : w.cut mismatch stem = .ok (byte, below)
  absorbed : ∃ merged, below.absorb above byte = .ok merged ∧ merged.toStem = w.toStem

/-- A stem can be cut at each of its bytes. -/
theorem exists_parts (hw : w.toStem = Stem.of whole) {mismatch : Nat} (hm : mismatch < whole.length)
    {stem : Except Fault Key} (hstem : inlineCapacity < whole.length → stem = .ok whole) :
    ∃ above below, Parts w mismatch whole[mismatch] stem above below ∧
      above.toStem = Stem.of (whole.take mismatch) ∧
        below.toStem = Stem.of (whole.drop (mismatch + 1)) := by
  have hbound : whole.length < 2 ^ 32 := (fills_of_toStem hw).1 ▸ w.length.toNat_lt
  have htake : (whole.take mismatch).length = mismatch := List.length_take_of_le (Nat.le_of_lt hm)
  have hgiven : (whole.take mismatch).take inlineCapacity <+: w.inline := by
    rw [show w.inline = _ from congrArg Stem.inline hw, List.take_take]
    exact List.take_prefix_take_left (Nat.min_le_left _ _)
  obtain ⟨above, hset, habove⟩ := set_ok empty (by omega) hgiven
  rw [htake] at hset
  obtain ⟨below, hcut, hbelow⟩ := cut_ok hw hm hstem
  have hroom : (whole.take mismatch).length + 1 + (whole.drop (mismatch + 1)).length <
      2 ^ 32 := by
    rw [htake, List.length_drop]
    omega
  obtain ⟨merged, habsorb, hmerged⟩ := absorb_ok habove hbelow hroom whole[mismatch]
  rw [← List.drop_eq_getElem_cons hm, List.take_append_drop] at hmerged
  exact ⟨above, below, ⟨hset, hcut, merged, habsorb, hmerged.trans hw.symm⟩, habove, hbelow⟩

end Window

/-! ## Nodes -/

namespace Node

variable {L : Loader} {n depth : Nat} {stem key : Key} {nd parent : Node} {b : UInt8}
  {record : Record}

/-- Of a new node with two children the second one is taken away again: the node gives way to
the first one, and the counts are what they were before. -/
theorem ForksTo.gives_way {s : Stem} {a : UInt8} {t : Tree} {first : Node}
    (h : ForksTo s a b t (.leaf record) first parent) (hab : a ≠ b) (ht : t ≠ .empty)
    (stats : Stats) :
    ∃ single, removeChild parent b (stats.alloc .four) =
        .ok (.leaf record, single, stats.alloc .four) ∧
      settle single (stats.alloc .four) = .ok (Tree.joined s a t, stats) := by
  have hsound := h.sound hab ht nofun
  have hmem := h.perm.mem_iff.mpr List.mem_cons_self
  obtain ⟨single, hremove, hremoved, hsize⟩ := removeChild_answers hsound hmem stats
  rw [h.size_eq] at hsize hremove
  have hfour : size single = .four := hsize
  have hsettle := settle_single hremoved.sound hfour (hremoved.children_single hsound h.perm) stats
  rw [hremoved.stem_eq, h.stem_eq] at hsettle
  rw [hfour] at hremove
  rw [Stats.alloc_eq]
  exact ⟨single, hremove, hsettle⟩

/-- The node `parent` has the first `mismatch` bytes of the stem of `nd`, and two children: a
leaf under the byte `b`, and under the byte of the stem the node `nd` with what comes after it. -/
structure SplitAt (L : Loader) (n depth : Nat) (stem : Key) (mismatch : Fin stem.length)
    (b : UInt8) (record : Record) (nd parent : Node) : Prop where
  size_eq : size parent = .four
  stem_eq : parent.header.stem = Stem.of (stem.take mismatch)
  children_eq : RadixIndex.Node.children parent =
    if b < stem[mismatch] then
      [(b, .leaf record),
        (stem[mismatch], (withStem nd (Stem.of (stem.drop (mismatch + 1)))).toTree)]
    else
      [(stem[mismatch], (withStem nd (Stem.of (stem.drop (mismatch + 1)))).toTree),
        (b, .leaf record)]
  /-- Below, the node carries what is left of its stem. -/
  below_carries : (withStem nd (Stem.of (stem.drop (mismatch + 1)))).Carries L n
    (depth + (mismatch + 1)) (stem.drop (mismatch + 1))
  /-- Whichever leaf is the smallest, the new node carries its stem, if the new key has it. -/
  carries : ((L.load record n).drop depth).take mismatch = stem.take mismatch →
    parent.Carries L n depth (stem.take mismatch)

/-- The smallest leaf of a new node is the new leaf or the smallest one of the node below. -/
theorem ForksTo.carries {a : UInt8} {first : Node} {m : Nat} {s : Stem}
    (h : ForksTo (Stem.of (stem.take m)) a b (withStem nd s).toTree (.leaf record) first parent)
    (hnd : nd.Carries L n depth stem) (hm : m ≤ stem.length)
    (hrecord : ((L.load record n).drop depth).take m = stem.take m) :
    parent.Carries L n depth (stem.take m) where
  stem_eq := h.stem_eq
  spelled hlong := by
    rw [List.length_take_of_le hm] at hlong ⊢
    rw [RadixIndex.Node.toTree, RadixIndex.Tree.least?_node]
    show ∃ r, (RadixIndex.Node.children parent).head?.bind _ = some r ∧ _
    rw [h.children_eq]
    split
    · exact ⟨record, rfl, hrecord⟩
    · obtain ⟨r, hr, hspelled⟩ := hnd.spelled (Nat.lt_of_lt_of_le hlong hm)
      refine ⟨r, (least?_withStem nd s).trans hr, ?_⟩
      calc ((L.load r n).drop depth).take m
          = (((L.load r n).drop depth).take stem.length).take m := by
            rw [List.take_take, Nat.min_eq_left hm]
        _ = stem.take m := by rw [hspelled]

/-- Splitting takes the stem of a node apart at a byte, and nothing is lost: taking the new leaf
away again puts the node back. -/
theorem splitStem_exact {mismatch : Fin stem.length} (h : nd.Carries L key.length depth stem)
    (hb : key[depth + mismatch]? = some b) (record : Record) (s : Stats) :
    ∃ parent, splitStem L nd key depth mismatch record s = .ok (parent, s.alloc .four) ∧
      SplitAt L key.length depth stem mismatch b record nd parent ∧
        (b ≠ stem[mismatch] → ∃ single, removeChild parent b (s.alloc .four) =
            .ok (.leaf record, single, s.alloc .four) ∧
          settle single (s.alloc .four) = .ok (nd.toTree, s)) := by
  obtain ⟨first, parent, hfork, hsplit⟩ := splitStem_eq h mismatch.isLt hb record
  refine ⟨parent, hsplit s,
    ⟨hfork.size_eq, hfork.stem_eq, hfork.children_eq, h.withStem (mismatch + 1),
      hfork.carries h (Nat.le_of_lt mismatch.isLt)⟩, ?_⟩
  intro hbyte
  obtain ⟨single, hremove, hsettle⟩ := hfork.gives_way (Ne.symm hbyte) nofun s
  have hwhole : nd.header.stem =
      Stem.of (stem.take mismatch ++ stem[mismatch.val] :: stem.drop (mismatch + 1)) := by
    rw [h.stem_eq, ← List.drop_eq_getElem_cons mismatch.isLt, List.take_append_drop]
  rw [Tree.joined_withStem hwhole] at hsettle
  exact ⟨single, hremove, hsettle⟩

/-- A node of four gives way to the node in its first slot, which gets both stems with the byte
between them. -/
theorem collapse_first {keys : Vector UInt8 4} {used : Fin 5} {child : Fin 4 → Tree} {h : Header}
    {c : Fin (NodeHeader.width h) → Tree} {rest : Key} (hchild : child (0 : Fin 4) = .node h c)
    (hrest : h.stem = Stem.of rest) :
    collapse ⟨⟨Stem.of stem, .four keys used⟩, child⟩ =
      .ok (.node ⟨Stem.of (stem ++ keys.get 0 :: rest), h.layout⟩ c) := by
  rw [collapse, hchild]
  dsimp only
  rw [hrest, Stem.join_of]
  rfl

/-- Splitting a stem and joining two stems are exact, and undo each other.

Splitting puts a new node above the node, which has what comes before the byte and the new leaf
beside the node, and the node keeps what comes after the byte.  The windows are cut alike.
Taking the leaf away again puts the node back, and in windows absorbing what was cut off does.
Joining, of nodes as of windows, gives both stems with the byte between them. -/
theorem splices_exactly :
    (∀ (L : Loader) (key : Key) (depth : Nat) (stem : Key) (nd : Node) (mismatch : Fin stem.length)
        (b : UInt8) (record : Record) (s : Stats),
      nd.Carries L key.length depth stem → key[depth + mismatch]? = some b →
        ∃ parent, splitStem L nd key depth mismatch record s = .ok (parent, s.alloc .four) ∧
          SplitAt L key.length depth stem mismatch b record nd parent ∧
          (b ≠ stem[mismatch] → ∃ single, removeChild parent b (s.alloc .four) =
              .ok (.leaf record, single, s.alloc .four) ∧
            settle single (s.alloc .four) = .ok (nd.toTree, s)) ∧
          ∀ w : Window, w.toStem = nd.header.stem → ∃ above below,
            w.Parts mismatch stem[mismatch] (nd.fullStem L depth key.length) above below ∧
              above.toStem = parent.header.stem ∧
                below.toStem = Stem.of (stem.drop (mismatch + 1))) ∧
    ∀ (stem rest : Key) (byte : UInt8),
      (∀ (keys : Vector UInt8 4) (used : Fin 5) (child : Fin 4 → Tree) (h : Header)
          (c : Fin (NodeHeader.width h) → Tree),
        keys.get 0 = byte → child (0 : Fin 4) = .node h c → h.stem = Stem.of rest →
          collapse ⟨⟨Stem.of stem, .four keys used⟩, child⟩ =
            .ok (.node ⟨Stem.of (stem ++ byte :: rest), h.layout⟩ c)) ∧
      (stem.length + 1 + rest.length < 2 ^ 32 → ∀ w parent : Window,
        parent.toStem = Stem.of stem → w.toStem = Stem.of rest →
          ∃ merged, w.absorb parent byte = .ok merged ∧
            merged.length.toNat = stem.length + 1 + rest.length ∧
              merged.inline = (stem ++ byte :: rest).take inlineCapacity) := by
  refine ⟨?_, ?_⟩
  · intro L key depth stem nd mismatch b record s hnd hb
    obtain ⟨parent, hsplit, hparts, hback⟩ := splitStem_exact hnd hb record s
    refine ⟨parent, hsplit, hparts, hback, ?_⟩
    intro w hw
    obtain ⟨above, below, hwindows, habove, hbelow⟩ :=
      Window.exists_parts (hw.trans hnd.stem_eq) mismatch.isLt fun _ => hnd.fullStem_eq
    exact ⟨above, below, hwindows, habove.trans hparts.stem_eq.symm, hbelow⟩
  · intro stem rest byte
    refine ⟨?_, ?_⟩
    · rintro keys used child h c rfl hchild hrest
      exact collapse_first hchild hrest
    · intro hroom w parent hparent hw
      obtain ⟨merged, habsorb, hmerged⟩ := Window.absorb_ok hparent hw hroom byte
      refine ⟨merged, habsorb, ?_, congrArg Stem.inline hmerged⟩
      have hlength : merged.length.toNat = (stem ++ byte :: rest).length :=
        congrArg Stem.length hmerged
      rw [hlength, List.length_append, List.length_cons]
      omega

/-- A stem of eleven bytes is split at its fifth byte, and stems of six and four bytes are joined:
none of the two fits into a window. -/
theorem splices_exactly_of_long_stem :
    let L := Loader.modulo 65536
    let stem : Key := List.replicate 11 0
    let key : Key := [0, 0, 0, 0, 7, 0, 0, 0, 0, 0, 0, 3]
    let nd : Node := ⟨⟨Stem.of stem, .four #v[1, 2, 0, 0] 2⟩,
      fun i => if i = (0 : Fin 4) then .leaf 1 else if i = (1 : Fin 4) then .leaf 2 else .empty⟩
    let w : Window := ⟨11, Vector.replicate 9 0⟩
    nd.Carries L key.length 0 stem ∧ key[0 + 4]? = some 7 ∧ w.toStem = nd.header.stem ∧
      (∃ parent, splitStem L nd key 0 4 9 {} = .ok (parent, Stats.alloc {} .four) ∧
        SplitAt L key.length 0 stem ⟨4, by decide⟩ 7 9 nd parent ∧
          (∃ single, removeChild parent 7 (Stats.alloc {} .four) =
              .ok (.leaf 9, single, Stats.alloc {} .four) ∧
            settle single (Stats.alloc {} .four) = .ok (nd.toTree, {})) ∧
          ∃ above below, w.Parts 4 0 (nd.fullStem L 0 key.length) above below) ∧
      ∃ merged, Window.absorb ⟨4, #v[5, 6, 7, 8, 1, 1, 1, 1, 1]⟩
          ⟨6, #v[1, 2, 3, 4, 5, 6, 9, 9, 9]⟩ 0 = .ok merged ∧
        merged.length.toNat = 6 + 1 + 4 ∧ merged.inline = [1, 2, 3, 4, 5, 6, 0, 5, 6] := by
  intro L stem key nd w
  have hnd : nd.Carries L key.length 0 stem := ⟨rfl, fun _ => ⟨1, by decide, by decide⟩⟩
  have hbyte : key[0 + 4]? = some 7 := by decide
  have hw : w.toStem = nd.header.stem := by decide
  obtain ⟨parent, hsplit, hsplitAt, hback, hwindows⟩ :=
    splices_exactly.1 L key 0 stem nd ⟨4, by decide⟩ 7 9 {} hnd hbyte
  obtain ⟨above, below, hparts, -⟩ := hwindows w hw
  have hjoined := (splices_exactly.2 [1, 2, 3, 4, 5, 6] [5, 6, 7, 8] 0).2 (by decide)
    ⟨4, #v[5, 6, 7, 8, 1, 1, 1, 1, 1]⟩ ⟨6, #v[1, 2, 3, 4, 5, 6, 9, 9, 9]⟩ (by decide) (by decide)
  exact ⟨hnd, hbyte, hw,
    ⟨parent, hsplit, hsplitAt, hback (by decide), above, below, hparts⟩, hjoined⟩

end Node

end RadixIndex.Dynamic
