/-
# When to merge

A sequence of upserts can be run with merges anywhere between them, and with merges
that come by themselves before some of them (`Schedule`).  Nothing of it can be seen
from outside: merging moves records from one layer to the other, and what both layers
hold together stays the map that the upserts make (`Schedule.performAll_ok`).

Reading goes by this map alone.  So two indexes for keys of the same length answer every
lookup, every scan and the walk over all records alike, however they are configured and
whenever they were merged (`schedules_agree`), and what they find under a key is the
record of the last upsert of it.
-/
import RadixIndex.Proofs.Index.Scan
import RadixIndex.Proofs.Walk

namespace RadixIndex

variable {L : Loader} {n : Nat}

/-! ## Listings -/

namespace Listing

variable {get get' : Key → Option Record} {wanted : Key → Prop} {rs rs' : List Record}

/-- A listing is known by what lookups find. -/
theorem unique (h : Listing L n get wanted rs) (h' : Listing L n get wanted rs') : rs = rs' := by
  have hord : L.Ordered n rs := List.pairwise_map.mp h.ascending
  have hord' : L.Ordered n rs' := List.pairwise_map.mp h'.ascending
  refine hord.ext hord' ?_
  intro r
  rw [h.mem_iff, h'.mem_iff]

theorem of_get_eq (h : Listing L n get wanted rs)
    (hget : ∀ key : Key, key.length = n → get key = get' key) : Listing L n get' wanted rs := by
  refine ⟨h.ascending, ?_⟩
  intro r
  rw [h.mem_iff, hget _ (L.length_load r n)]

end Listing

namespace Index

/-! ## Schedules -/

/-- The operations are the upserts in their order, with merges put in anywhere. -/
inductive Schedule : List (Key × Record) → List Operation → Prop
  | nil : Schedule [] []
  | upsert {key : Key} {r : Record} {us : List (Key × Record)} {ops : List Operation} :
      Schedule us ops → Schedule ((key, r) :: us) (.upsert key r :: ops)
  | merge {us : List (Key × Record)} {ops : List Operation} :
      Schedule us ops → Schedule us (.merge :: ops)

/-- The record of the last upsert of a key. -/
def lastUpsert (us : List (Key × Record)) (key : Key) : Option Record := us.reverse.lookup key

/-- The map with the upserts made. -/
def upserted (m : Contents) (us : List (Key × Record)) : Contents :=
  us.foldl (fun m u => m.insert u.1 u.2) m

theorem lastUpsert_cons (k : Key) (r : Record) (us : List (Key × Record)) (key : Key) :
    lastUpsert ((k, r) :: us) key =
      (lastUpsert us key).or (if key = k then some r else none) := by
  rw [lastUpsert, List.reverse_cons, List.lookup_append]
  by_cases hkey : key = k
  · rw [hkey, List.lookup_cons_self, if_pos rfl]
    rfl
  · rw [List.lookup_cons, beq_eq_false_iff_ne.mpr hkey, if_neg hkey]
    rfl

/-- Upserts hide what was there, and a later one hides an earlier one of the same key. -/
theorem lookup_upserted (m : Contents) (us : List (Key × Record)) (key : Key) :
    (upserted m us).lookup key = (lastUpsert us key).or (m.lookup key) := by
  induction us generalizing m with
  | nil => rfl
  | cons u us ih =>
      obtain ⟨k, r⟩ := u
      calc (upserted m ((k, r) :: us)).lookup key
          = (lastUpsert us key).or ((m.insert k r).lookup key) := ih (m.insert k r)
        _ = ((lastUpsert us key).or (if key = k then some r else none)).or (m.lookup key) := by
          rw [Contents.lookup_insert_or, Option.or_assoc]
        _ = (lastUpsert ((k, r) :: us) key).or (m.lookup key) := by rw [lastUpsert_cons]

/-! ## Both layers together -/

/-- What both layers hold, the dynamic layer in front. -/
def Layers.union (s : Layers) : Contents := s.dynamic ∪ s.frozen

namespace Layers

variable {c : Config}

theorem union_merged (s : Layers) : s.merged.union = s.union := Finmap.empty_union

theorem union_mergedIfDue (s : Layers) : (s.mergedIfDue c).union = s.union := by
  rw [mergedIfDue]
  split
  · exact s.union_merged
  · rfl

/-- An upsert puts the record in the union, whether a merge comes before it or not. -/
theorem union_upsert (s : Layers) (key : Key) (r : Record) :
    (s.perform c (.upsert key r)).2.union = s.union.insert key r := by
  rw [← s.union_mergedIfDue (c := c)]
  exact Finmap.insert_union.symm

theorem union_merge (s : Layers) : (s.perform c .merge).2.union = s.union := s.union_merged

end Layers

variable {c c' : Config} {x y : Index} {s : Layers} {us : List (Key × Record)}
  {ops ops' : List Operation}

/-- Every record upserted is stored under its own key of `n` bytes. -/
def ProperUpserts (L : Loader) (n : Nat) (us : List (Key × Record)) : Prop :=
  ∀ u ∈ us, u.1.length = n ∧ L.load u.2 n = u.1

instance (L : Loader) (n : Nat) (us : List (Key × Record)) : Decidable (ProperUpserts L n us) :=
  inferInstanceAs (Decidable (∀ u ∈ us, u.1.length = n ∧ L.load u.2 n = u.1))

/-- Run by any schedule, the upserts are made to what both layers hold together. -/
theorem Schedule.performAll_ok (h : Schedule us ops) (hx : x.Refines c L s)
    (hus : ProperUpserts L c.keyLength us) :
    ∃ x' s', x.performAll ops = .ok x' ∧ x'.Refines c L s' ∧
      s'.union = upserted s.union us := by
  induction h generalizing x s with
  | nil => exact ⟨x, s, rfl, hx, rfl⟩
  | @upsert key r us ops _ ih =>
      obtain ⟨x', hperform, hx'⟩ := hx.upsert_ok (hus (key, r) List.mem_cons_self)
      obtain ⟨x'', s'', hall, hx'', hunion⟩ := ih hx' fun u hu => hus u (List.mem_cons_of_mem _ hu)
      refine ⟨x'', s'', ?_, hx'', ?_⟩
      · rw [performAll, hperform, ok_bind]
        exact hall
      · rw [hunion, s.union_upsert]
        rfl
  | @merge us ops _ ih =>
      -- The layers after the merge are others, but they hold the same map together.
      obtain ⟨x', hperform, hx'⟩ := perform_simulates c L x s .merge hx trivial
      obtain ⟨x'', s'', hall, hx'', hunion⟩ := ih hx' hus
      refine ⟨x'', s'', ?_, hx'', ?_⟩
      · rw [performAll, hperform, ok_bind]
        exact hall
      · rw [hunion, s.union_merge]

/-! ## What can be seen of an index -/

namespace Refines

variable {key : Key} {keys : List Key} {rs : List Record} {wanted : Key → Prop}

/-- What is found under a key has that key. -/
theorem load_of_get (h : x.Refines c L s) (hk : key.length = c.keyLength) {r : Record}
    (hr : x.get key = some r) : L.load r c.keyLength = key := by
  rw [h.lookup_eq hk, h.holds_weave] at hr
  exact hr.2

theorem map_load_of_get (h : x.Refines c L s) (hkeys : ∀ k ∈ keys, k.length = c.keyLength)
    (hget : keys.map x.get = rs.map some) : rs.map (fun r => L.load r c.keyLength) = keys := by
  induction keys generalizing rs with
  | nil =>
      cases rs with
      | nil => rfl
      | cons r rs => exact absurd hget nofun
  | cons k keys ih =>
      cases rs with
      | nil => exact absurd hget nofun
      | cons r rs =>
          obtain ⟨hr, hrest⟩ := List.cons.inj hget
          rw [List.map_cons, h.load_of_get (hkeys k List.mem_cons_self) hr,
            ih (fun k' hk' => hkeys k' (List.mem_cons_of_mem _ hk')) hrest]

/-- The records found under the wanted keys are the listing of them. -/
theorem listing (h : x.Refines c L s) (hrs : x.Finds wanted rs) :
    Listing L c.keyLength x.get wanted rs := by
  obtain ⟨keys, hascending, hkeys, hget⟩ := hrs
  rw [h.config_eq] at hkeys
  -- The keys looked up are the keys of the records found, so either list gives the other.
  have hload := h.map_load_of_get (fun k hk => ((hkeys k).mp hk).1) hget
  rw [← hload, List.map_map] at hget
  refine ⟨hload ▸ hascending, ?_⟩
  intro r
  constructor
  · intro hr
    have hkey := (hkeys (L.load r c.keyLength)).mp (hload ▸ List.mem_map_of_mem hr)
    exact ⟨hkey.2.1, List.map_inj_left.mp hget r hr⟩
  · rintro ⟨hwanted, hr⟩
    have hkey := (hkeys (L.load r c.keyLength)).mpr
      ⟨L.length_load r _, hwanted, by rw [hr]; rfl⟩
    rw [← hload] at hkey
    obtain ⟨r', hr', hsame⟩ := List.mem_map.mp hkey
    have hfound := List.map_inj_left.mp hget r' hr'
    rw [Function.comp_apply, hsame, hr] at hfound
    rw [Option.some.inj hfound]
    exact hr'

end Refines

/-- The index answers by the last upserts: under every key it finds the record of the
last one of this key, and it shows these records from a key on, and all of them. -/
structure AnswersLast (L : Loader) (n : Nat) (us : List (Key × Record)) (x : Index) : Prop where
  get_eq : ∀ key : Key, key.length = n → x.get key = lastUpsert us key
  scan_eq : ∀ key : Key, key.length = n → ∃ records,
    Listing L n (lastUpsert us) (key ≤ ·) records ∧ ∀ m, x.scan key m = .ok (records.take m)
  iter_eq : ∃ records, Listing L n (lastUpsert us) (fun _ => True) records ∧
    (∀ i, (x.iter.after i).next.1 = records[i]?) ∧ x.toList = records

/-- Two indexes answer alike: every lookup, every scan and the walk over all records. -/
structure AnswerAlike (n : Nat) (x y : Index) : Prop where
  get_eq : ∀ key : Key, key.length = n → x.get key = y.get key
  scan_eq : ∀ key : Key, key.length = n → ∀ m, ∃ records,
    x.scan key m = .ok records ∧ y.scan key m = .ok records
  iter_eq : ∀ i, (x.iter.after i).next.1 = (y.iter.after i).next.1
  toList_eq : x.toList = y.toList

/-- Lookups decide all that can be seen of an index. -/
theorem Refines.answersLast (h : x.Refines c L s)
    (hget : ∀ key : Key, key.length = c.keyLength → x.get key = lastUpsert us key) :
    AnswersLast L c.keyLength us x where
  get_eq := hget
  scan_eq key hk := by
    obtain ⟨scan, rs, heq, hyields, hfinds⟩ := h.lowerBound_ok hk
    refine ⟨rs, (h.listing hfinds).of_get_eq hget, ?_⟩
    intro m
    rw [Index.scan, heq, ok_bind, Scan.take_eq hyields, pure_eq_ok]
  iter_eq := by
    obtain ⟨rs, hyields, hfinds⟩ := h.iter_ok
    exact ⟨rs, (h.listing hfinds).of_get_eq hget, Scan.next_after hyields, Scan.rest_eq hyields⟩

theorem AnswersLast.alike (h : AnswersLast L n us x) (h' : AnswersLast L n us y) :
    AnswerAlike n x y := by
  obtain ⟨rs, hlisting, hafter, htoList⟩ := h.iter_eq
  obtain ⟨rs', hlisting', hafter', htoList'⟩ := h'.iter_eq
  obtain rfl := hlisting.unique hlisting'
  refine ⟨?_, ?_, ?_, htoList.trans htoList'.symm⟩
  · intro key hk
    rw [h.get_eq key hk, h'.get_eq key hk]
  · intro key hk m
    obtain ⟨records, hlisting, hscan⟩ := h.scan_eq key hk
    obtain ⟨records', hlisting', hscan'⟩ := h'.scan_eq key hk
    obtain rfl := hlisting.unique hlisting'
    exact ⟨_, hscan m, hscan' m⟩
  · intro i
    rw [hafter, hafter']

/-! ## Any schedule -/

/-- From the empty index on, every schedule of the upserts can be run, and leaves an index
that answers by the last of them. -/
theorem Schedule.answersLast (h : Schedule us ops) (hc : c.validate = .ok ())
    (hus : ProperUpserts L c.keyLength us) :
    ∃ x₀ x, withConfig c L = .ok x₀ ∧ x₀.performAll ops = .ok x ∧
      AnswersLast L c.keyLength us x := by
  obtain ⟨x, s, hall, hx, hunion⟩ := h.performAll_ok (refines_new c L) hus
  refine ⟨new c L, x, withConfig_eq hc L, hall, hx.answersLast ?_⟩
  intro key hk
  have hempty : Layers.empty.union = ∅ := Finmap.empty_union
  calc x.get key = s.union.lookup key := hx.lookup_eq hk
    _ = (upserted ∅ us).lookup key := by rw [hunion, hempty]
    _ = (lastUpsert us key).or ((∅ : Contents).lookup key) := lookup_upserted ∅ us key
    _ = lastUpsert us key := by rw [Finmap.lookup_empty, Option.or_none]

/-- Two indexes for keys of the same length, run with the same upserts by any two
schedules, answer alike, and by the last upsert of every key. -/
theorem schedules_agree (hc : c.validate = .ok ()) (hc' : c'.validate = .ok ())
    (hkey : c.keyLength = c'.keyLength) (hus : ProperUpserts L c.keyLength us)
    (h : Schedule us ops) (h' : Schedule us ops') :
    ∃ x₀ y₀ x y, withConfig c L = .ok x₀ ∧ withConfig c' L = .ok y₀ ∧
      x₀.performAll ops = .ok x ∧ y₀.performAll ops' = .ok y ∧
        AnswerAlike c.keyLength x y ∧ AnswersLast L c.keyLength us x := by
  obtain ⟨x₀, x, hx₀, hx, hlast⟩ := h.answersLast hc hus
  obtain ⟨y₀, y, hy₀, hy, hlast'⟩ := h'.answersLast hc' (hkey ▸ hus)
  exact ⟨x₀, y₀, x, y, hx₀, hy₀, hx, hy, hlast.alike (hkey ▸ hlast'), hlast⟩

/-- An index that merges before every upsert and one with two merges by hand, the second of
which finds the first key on both sides. -/
theorem schedules_agree_of_two_bytes :
    let c : Config := { keyLength := 2, autoMerge := true, mergeThreshold := 0, mergeRatio := 1 }
    let c' : Config := { keyLength := 2, denseThreshold := 0 }
    let L := Loader.modulo 65536
    let us : List (Key × Record) := [([0, 1], 1), ([0, 2], 2), ([0, 1], 65537)]
    ∃ x₀ y₀ x y, withConfig c L = .ok x₀ ∧ withConfig c' L = .ok y₀ ∧
      x₀.performAll [.upsert [0, 1] 1, .upsert [0, 2] 2, .upsert [0, 1] 65537] = .ok x ∧
        y₀.performAll [.upsert [0, 1] 1, .merge, .upsert [0, 2] 2, .upsert [0, 1] 65537, .merge] =
            .ok y ∧
          AnswerAlike 2 x y ∧ AnswersLast L 2 us x :=
  schedules_agree (c := { keyLength := 2, autoMerge := true, mergeThreshold := 0, mergeRatio := 1 })
    (L := .modulo 65536) rfl rfl rfl (by decide) (.upsert (.upsert (.upsert .nil)))
    (.upsert (.merge (.upsert (.upsert (.merge .nil)))))

end Index

end RadixIndex
