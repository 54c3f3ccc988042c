/-
# What a cursor shows

A cursor shows a list of records when it stands on the first of them and the rest are
in the subtrees to come (`Cursor.Shows`).  Moving on takes the first record off the
list, and a cursor that shows nothing goes on showing nothing (`Shows.advance`).

Descending shows the records of a tree (`descend_shows`), and seeking a key shows those
whose keys are not smaller (`seekFrom_ok`): at every node, what the stem or the bytes
put before the key is passed over, and what they put after it is shown as a whole.
-/
import RadixIndex.Proofs.Answers
import RadixIndex.Proofs.Stem
import RadixIndex.Tree.Cursor

namespace RadixIndex

variable {H : Type} [NodeHeader H] {L : Loader} {n : Nat} {path stem key : Key}

/-! ## Cursors and lists of records -/

/-- All of the trees are rooted somewhere, so none of them is empty. -/
def Standing (L : Loader) (n : Nat) (trees : List (Tree H)) : Prop :=
  ∀ t ∈ trees, ∃ path, t.Rooted L n path

/-- The records of several trees, one after the other. -/
def recordsOf (trees : List (Tree H)) : List Record := trees.flatMap Tree.records

theorem recordsOf_append (ts ts' : List (Tree H)) :
    recordsOf (ts ++ ts') = recordsOf ts ++ recordsOf ts' :=
  List.flatMap_append

theorem Standing.append {ts ts' : List (Tree H)} (h : Standing L n ts) (h' : Standing L n ts') :
    Standing L n (ts ++ ts') := by
  intro t ht
  rcases List.mem_append.mp ht with ht | ht
  · exact h t ht
  · exact h' t ht

namespace Cursor

/-- The cursor stands on the first of the records, and the others are still to come. -/
structure Shows (L : Loader) (n : Nat) (cur : Cursor H) (rs : List Record) : Prop where
  standing : Standing L n cur.pending
  current_eq : cur.current = rs.head?
  pending_eq : recordsOf cur.pending = rs.tail

variable {cur : Cursor H} {rs : List Record} {pending : List (Tree H)}

/-! ### Descending -/

theorem descend_children (h : H) (c : Fin (NodeHeader.width h) → Tree H)
    (pending : List (Tree H)) :
    descend (.node h c) pending =
      match (Node.mk h c).children with
      | [] => ⟨none, pending⟩
      | e :: rest => descend e.2 (rest.map Prod.snd ++ pending) := by
  rw [Node.children, Node.slots, descend]
  cases NodeHeader.slots h fun i => !(c i).isEmpty with
  | nil => rfl
  | cons s slots =>
      rw [List.map_cons]
      dsimp only
      rw [List.map_map]
      rfl

theorem descend_node (h : H) (c : Fin (NodeHeader.width h) → Tree H) {e : UInt8 × Tree H}
    {rest : List (UInt8 × Tree H)} (hl : (Node.mk h c).children = e :: rest)
    (pending : List (Tree H)) :
    descend (.node h c) pending = descend e.2 (rest.map Prod.snd ++ pending) := by
  rw [descend_children, hl]

/-- Descending stands on the first record and leaves trees with the others. -/
theorem exists_descend {t : Tree H} (ht : t.Rooted L n path) :
    ∃ r trees, t.records = r :: recordsOf trees ∧ Standing L n trees ∧
      ∀ pending, descend t pending = ⟨some r, trees ++ pending⟩ := by
  induction ht with
  | @leaf path r _ => exact ⟨r, [], rfl, fun _ h => absurd h List.not_mem_nil, fun _ => rfl⟩
  | @node path stem h c _ _ hone hbelow ih =>
      cases hl : (Node.mk h c).children with
      | nil => exact absurd hl hone
      | cons e rest =>
          rw [hl] at hbelow ih
          obtain ⟨r, trees, hrecords, hstanding, hdescend⟩ := ih e List.mem_cons_self
          refine ⟨r, trees ++ rest.map Prod.snd, ?_, hstanding.append ?_, ?_⟩
          · rw [Tree.records_node, hl, List.flatMap_cons, hrecords, recordsOf_append]
            simp [recordsOf, List.flatMap_map]
          · intro t ht
            obtain ⟨e', he', rfl⟩ := List.mem_map.mp ht
            exact ⟨_, hbelow e' (List.mem_cons_of_mem _ he')⟩
          · intro pending
            rw [descend_node h c hl, hdescend, List.append_assoc]

theorem descend_shows {t : Tree H} (ht : t.Rooted L n path) (hp : Standing L n pending) :
    (descend t pending).Shows L n (t.records ++ recordsOf pending) := by
  obtain ⟨r, trees, hrecords, hstanding, hdescend⟩ := exists_descend ht
  rw [hdescend, hrecords]
  exact ⟨hstanding.append hp, rfl, recordsOf_append trees pending⟩

theorem resume_shows (hp : Standing L n pending) :
    (resume pending).Shows L n (recordsOf pending) := by
  cases pending with
  | nil => exact ⟨hp, rfl, rfl⟩
  | cons t rest =>
      obtain ⟨path, ht⟩ := hp t List.mem_cons_self
      exact descend_shows ht fun t' ht' => hp t' (List.mem_cons_of_mem _ ht')

/-- A cursor that moves on shows the rest. -/
theorem Shows.advance (h : cur.Shows L n rs) : cur.advance.Shows L n rs.tail := by
  rw [Cursor.advance, h.current_eq]
  cases rs with
  | nil => exact h
  | cons r rest =>
      have hresume := resume_shows h.standing
      rw [h.pending_eq] at hresume
      exact hresume

theorem Shows.length_le_bound (h : cur.Shows L n rs) : rs.length ≤ cur.bound := by
  have hpending : (cur.pending.map Tree.leafCount).sum = rs.tail.length := by
    rw [← h.pending_eq, recordsOf, List.length_flatMap]
    exact congrArg List.sum (List.map_congr_left fun t _ => t.leafCount_eq)
  rw [Cursor.bound, hpending, List.length_tail]
  omega

theorem Shows.take_eq (h : cur.Shows L n rs) (k : Nat) : (cur.take k).1 = rs.take k := by
  induction k generalizing cur rs with
  | zero => rfl
  | succ k ih =>
      rw [Cursor.take, next, h.current_eq]
      cases rs with
      | nil => rfl
      | cons r rest => exact congrArg (r :: ·) (ih h.advance)

/-- What is left to a cursor is what it shows. -/
theorem Shows.rest_eq (h : cur.Shows L n rs) : cur.rest.1 = rs := by
  rw [rest, h.take_eq, List.take_of_length_le h.length_le_bound]

/-- A cursor on the first record of a whole tree shows all records. -/
theorem first_shows {t : Tree H} (ht : t = .empty ∨ t.Rooted L n []) :
    (first t).Shows L n t.records := by
  have hnone : Standing L n ([] : List (Tree H)) := fun _ h => absurd h List.not_mem_nil
  rcases ht with rfl | ht
  · exact ⟨hnone, rfl, rfl⟩
  · have hshows := descend_shows ht hnone
    rw [recordsOf, List.flatMap_nil, List.append_nil] at hshows
    exact hshows

/-! ### Seeking -/

/-- The records whose keys are not smaller than `key`. -/
def notBelow (L : Loader) (n : Nat) (key : Key) (rs : List Record) : List Record :=
  rs.filter fun r => decide (key ≤ L.load r n)

theorem notBelow_of_lt (h : ∀ r ∈ rs, L.load r n < key) : notBelow L n key rs = [] := by
  refine List.filter_eq_nil_iff.mpr ?_
  intro r hr hle
  exact List.not_lt.mpr (of_decide_eq_true hle) (h r hr)

theorem notBelow_of_le (h : ∀ r ∈ rs, key ≤ L.load r n) : notBelow L n key rs = rs :=
  List.filter_eq_self.mpr fun r hr => decide_eq_true (h r hr)

theorem notBelow_append (rs rs' : List Record) :
    notBelow L n key (rs ++ rs') = notBelow L n key rs ++ notBelow L n key rs' :=
  List.filter_append _ _

/-- Where the key goes on with the whole stem, the children before its next byte are
passed over. -/
theorem seekFrom_node {h : H} {c : Fin (NodeHeader.width h) → Tree H} {depth : Nat} {b : UInt8}
    (horder : (Node.mk h c).compareStem L key depth = .ok .eq)
    (hb : key[depth + NodeHeader.stemLength h]? = some b) :
    seekFrom L key (.node h c) depth pending =
      match (Node.mk h c).children.dropWhile fun e => decide (e.1 < b) with
      | [] => .ok (resume pending)
      | e :: rest =>
          if e.1 = b then
            seekFrom L key e.2 (depth + NodeHeader.stemLength h + 1) (rest.map Prod.snd ++ pending)
          else .ok (descend e.2 (rest.map Prod.snd ++ pending)) := by
  rw [seekFrom, horder, ok_bind, Node.children, Node.slots, List.dropWhile_map]
  dsimp only
  rw [hb]
  dsimp only [Function.comp_def]
  cases (NodeHeader.slots h fun i => !(c i).isEmpty).dropWhile fun s => decide (s.1 < b) with
  | nil => rfl
  | cons s slots =>
      rw [List.map_cons]
      dsimp only
      rw [List.map_map]
      rfl

section Children

variable {nd : Node H} {b : UInt8} {es : List (UInt8 × Tree H)}

theorem notBelow_before (hnd : nd.Rooted L n path stem) (hb : path ++ stem ++ [b] <+: key)
    (hes : ∀ e ∈ es, e ∈ nd.children ∧ e.1 < b) :
    notBelow L n key (es.flatMap fun e => e.2.records) = [] := by
  refine notBelow_of_lt ?_
  intro r hr
  obtain ⟨e, he, hr⟩ := List.mem_flatMap.mp hr
  obtain ⟨hmem, hlt⟩ := hes e he
  exact Key.lt_of_fork ((hnd.below e hmem).path_of_mem hr) hb hlt

theorem notBelow_after (hnd : nd.Rooted L n path stem) (hb : path ++ stem ++ [b] <+: key)
    (hes : ∀ e ∈ es, e ∈ nd.children ∧ b < e.1) :
    notBelow L n key (es.flatMap fun e => e.2.records) = es.flatMap fun e => e.2.records := by
  refine notBelow_of_le ?_
  intro r hr
  obtain ⟨e, he, hr⟩ := List.mem_flatMap.mp hr
  obtain ⟨hmem, hlt⟩ := hes e he
  exact List.le_of_lt (Key.lt_of_fork hb ((hnd.below e hmem).path_of_mem hr) hlt)

end Children

/-- The comparison with the stem tells which side of the key all records are on, or
finds the next byte of the key. -/
theorem compareStem_cases {nd : Node H} (hnd : nd.Rooted L n path stem) (hk : key.length = n)
    (hp : path <+: key) :
    nd.compareStem L key path.length = .ok .lt ∧ (∀ r ∈ nd.toTree.records, key < L.load r n) ∨
      nd.compareStem L key path.length = .ok .gt ∧ (∀ r ∈ nd.toTree.records, L.load r n < key) ∨
        nd.compareStem L key path.length = .ok .eq ∧ ∃ b, path ++ stem ++ [b] <+: key := by
  obtain ⟨segment, b, hlength, hb⟩ :=
    Key.exists_segment hp (k := stem.length) (hk ▸ hnd.length_lt)
  have hcompare := hnd.compareStem_eq hk
  have hprefix := (Key.append_prefix_iff hp).mp (Key.prefix_of_append hb)
  rw [← hlength, ← List.prefix_iff_eq_take.mp hprefix] at hcompare
  cases horder : compare segment stem with
  | lt =>
      rw [horder] at hcompare
      refine Or.inl ⟨hcompare, ?_⟩
      intro r hr
      exact Key.lt_of_segment (Key.prefix_of_append hb) (hnd.stem_of_mem hr) hlength horder
  | gt =>
      rw [horder] at hcompare
      refine Or.inr (Or.inl ⟨hcompare, ?_⟩)
      intro r hr
      exact Key.lt_of_segment (hnd.stem_of_mem hr) (Key.prefix_of_append hb) hlength.symm
        (Std.OrientedCmp.gt_iff_lt.mp horder)
  | eq =>
      rw [horder] at hcompare
      obtain rfl : segment = stem := Std.compare_eq_iff_eq.mp horder
      exact Or.inr (Or.inr ⟨hcompare, b, hb⟩)

/-- The search among the children of a node, when it can go on in each of them. -/
theorem seekFrom_children {h : H} {c : Fin (NodeHeader.width h) → Tree H} {b : UInt8}
    (hnd : (Node.mk h c).Rooted L n path stem) (hb : path ++ stem ++ [b] <+: key)
    (horder : (Node.mk h c).compareStem L key path.length = .ok .eq)
    (hpending : Standing L n pending)
    (hseek : ∀ t pending', (b, t) ∈ (Node.mk h c).children → Standing L n pending' →
      ∃ cur, seekFrom L key t (path ++ stem ++ [b]).length pending' = .ok cur ∧
        cur.Shows L n (notBelow L n key t.records ++ recordsOf pending')) :
    ∃ cur, seekFrom L key (.node h c) path.length pending = .ok cur ∧
      cur.Shows L n (notBelow L n key (Tree.node h c).records ++ recordsOf pending) := by
  have hbyte : key[path.length + NodeHeader.stemLength h]? = some b := by
    have hget := Key.getElem?_of_path hb
    rw [List.length_append, ← hnd.stemLength_eq] at hget
    exact hget
  have hdepth : path.length + NodeHeader.stemLength h + 1 = (path ++ stem ++ [b]).length := by
    rw [Key.length_below, ← hnd.stemLength_eq]
    rfl
  obtain ⟨pre, hsplit, hpre, hpost⟩ := exists_dropWhile hnd.sound.children_ordered b
  rw [seekFrom_node horder hbyte, hdepth, Tree.records_node]
  generalize (Node.mk h c).children.dropWhile (fun e => decide (e.1 < b)) = post at hsplit hpost
  have hmem : ∀ e ∈ pre ++ post, e ∈ (Node.mk h c).children := fun _ he => hsplit ▸ he
  have hbefore := notBelow_before hnd hb fun e he =>
    ⟨hmem e (List.mem_append_left _ he), hpre e he⟩
  rw [hsplit, List.flatMap_append, notBelow_append, hbefore, List.nil_append]
  cases post with
  | nil => exact ⟨_, rfl, resume_shows hpending⟩
  | cons e rest =>
      obtain ⟨hnot, hrest⟩ := hpost e rest rfl
      have he := hmem e (List.mem_append_right _ List.mem_cons_self)
      have hlater : ∀ e' ∈ rest, e' ∈ (Node.mk h c).children := fun e' he' =>
        hmem e' (List.mem_append_right _ (List.mem_cons_of_mem _ he'))
      have hstanding : Standing L n (rest.map Prod.snd ++ pending) := by
        refine Standing.append ?_ hpending
        intro t ht
        obtain ⟨e', he', rfl⟩ := List.mem_map.mp ht
        exact ⟨_, hnd.below e' (hlater e' he')⟩
      -- The later children are shown as a whole, whatever becomes of the first one.
      have hafter := notBelow_after hnd hb fun e' he' =>
        ⟨hlater e' he', UInt8.lt_of_le_of_lt (UInt8.not_lt.mp hnot) (hrest e' he')⟩
      have hrecords : recordsOf (rest.map Prod.snd ++ pending) =
          (rest.flatMap fun e => e.2.records) ++ recordsOf pending := by
        rw [recordsOf_append, recordsOf, List.flatMap_map]
      dsimp only
      rw [List.flatMap_cons, notBelow_append, hafter, List.append_assoc (notBelow L n key _),
        ← hrecords]
      by_cases hbyte : e.1 = b
      · obtain ⟨b', t⟩ := e
        obtain rfl : b' = b := hbyte
        rw [if_pos rfl]
        exact hseek t _ he hstanding
      · have hlt : b < e.1 := UInt8.lt_of_le_of_ne (UInt8.not_lt.mp hnot) (Ne.symm hbyte)
        have hhead : notBelow L n key e.2.records = e.2.records := notBelow_of_le fun r hr =>
          List.le_of_lt (Key.lt_of_fork hb ((hnd.below e he).path_of_mem hr) hlt)
        rw [if_neg hbyte, hhead]
        exact ⟨_, rfl, descend_shows (hnd.below e he) hstanding⟩

/-- Seeking a key answers, and shows the records whose keys are not smaller. -/
theorem seekFrom_ok {t : Tree H} (ht : t.Rooted L n path) (hk : key.length = n)
    (hp : path <+: key) (hpending : Standing L n pending) :
    ∃ cur, seekFrom L key t path.length pending = .ok cur ∧
      cur.Shows L n (notBelow L n key t.records ++ recordsOf pending) := by
  induction ht generalizing pending with
  | @leaf path r _ =>
      rw [seekFrom, hk, Tree.records_leaf]
      by_cases hlt : L.load r n < key
      · rw [notBelow_of_lt (by simpa using hlt), Key.compare_eq_lt.mpr hlt]
        exact ⟨_, rfl, resume_shows hpending⟩
      · rw [notBelow_of_le (by simpa using List.not_lt.mp hlt),
          if_neg fun h => hlt (Key.compare_eq_lt.mp (beq_iff_eq.mp h))]
        exact ⟨_, rfl, hpending, rfl, rfl⟩
  | @node path stem h c hsound hspells hone hbelow ih =>
      have hnd : (Node.mk h c).Rooted L n path stem := ⟨hsound, hspells, hone, hbelow⟩
      rcases compareStem_cases hnd hk hp with ⟨horder, hgreater⟩ | ⟨horder, hless⟩ | ⟨horder, b, hb⟩
      · have hall : notBelow L n key (Tree.node h c).records = (Tree.node h c).records :=
          notBelow_of_le fun r hr => List.le_of_lt (hgreater r hr)
        rw [seekFrom, horder, hall]
        exact ⟨_, rfl, descend_shows hnd.rooted hpending⟩
      · have hnone : notBelow L n key (Tree.node h c).records = [] := notBelow_of_lt hless
        rw [seekFrom, horder, hnone]
        exact ⟨_, rfl, resume_shows hpending⟩
      · exact seekFrom_children hnd hb horder hpending fun t _ ht hp' => ih (b, t) ht hb hp'

/-- From the root on, nothing is pending. -/
theorem lowerBound_ok {t : Tree H} (ht : t = .empty ∨ t.Rooted L n []) (hk : key.length = n) :
    ∃ cur, lowerBound L t key = .ok cur ∧ cur.Shows L n (notBelow L n key t.records) := by
  have hnone : Standing L n ([] : List (Tree H)) := fun _ h => absurd h List.not_mem_nil
  rcases ht with rfl | ht
  · exact ⟨_, rfl, hnone, rfl, rfl⟩
  · obtain ⟨cur, hseek, hshows⟩ := seekFrom_ok ht hk List.nil_prefix hnone
    rw [recordsOf, List.flatMap_nil, List.append_nil] at hshows
    exact ⟨cur, hseek, hshows⟩

/-! ## Any loader and any key -/

/-- A search for a key that is as long as those of the tree answers, also for a longer one and
with another loader. -/
theorem seekFrom_answers (M : Loader) {t : Tree H} (ht : t.Fits L n path) (hk : n ≤ key.length)
    (pending : List (Tree H)) : ∃ cur, seekFrom M key t path.length pending = .ok cur := by
  induction ht generalizing pending with
  | leaf _ =>
      rw [seekFrom]
      split
      · exact ⟨_, rfl⟩
      · exact ⟨_, rfl⟩
  | @node path stem h c hsound hspells htwo hbelow ih =>
      have hnd : (Node.mk h c).Stands L n path stem := ⟨hsound, hspells, htwo, hbelow⟩
      have hroom := hnd.length_lt
      have hlen : NodeHeader.stemLength h = stem.length := hnd.stemLength_eq
      have hreach : path.length + stem.length < key.length := Nat.lt_of_lt_of_le hroom hk
      obtain ⟨order, horder⟩ := hnd.rooted.compareStem_answers M (Nat.le_of_lt hreach)
      cases order with
      | lt =>
          rw [seekFrom, horder]
          exact ⟨_, rfl⟩
      | gt =>
          rw [seekFrom, horder]
          exact ⟨_, rfl⟩
      | eq =>
          have hb : key[path.length + NodeHeader.stemLength h]? =
              some key[path.length + stem.length] :=
            hlen.symm ▸ List.getElem?_eq_getElem hreach
          rw [seekFrom_node horder hb]
          split
          · exact ⟨_, rfl⟩
          · rename_i e rest hdrop
            have he : e ∈ (Node.mk h c).children :=
              (List.dropWhile_suffix _).subset (hdrop ▸ List.mem_cons_self)
            split
            · rw [hlen, ← Key.length_below path stem e.1]
              exact ih e he _
            · exact ⟨_, rfl⟩

end Cursor

end RadixIndex
