import Mathlib.Data.Finset.Card
import Mathlib.Data.List.Pairwise
import Mathlib.Order.Lattice

/-!
# Ordered maps

An ordered map is a list of entries with strictly increasing keys. The order
is a field, so every map that exists is sorted and lookups need no side
condition. `floor` and `ceiling` are the two neighbour queries of a tree map:
the greatest entry at or below a key and the least entry at or above it.
-/

namespace WPerf.Library

set_option autoImplicit false

@[ext]
structure OrderedMap (Key Value : Type*) [LinearOrder Key] where
  entries : List (Key × Value)
  sorted : entries.Pairwise (fun left right => left.1 < right.1)

namespace OrderedMap

variable {Key Value : Type*} [LinearOrder Key]

def empty : OrderedMap Key Value := ⟨[], List.Pairwise.nil⟩

instance : EmptyCollection (OrderedMap Key Value) := ⟨empty⟩

@[simp]
theorem entries_empty : (∅ : OrderedMap Key Value).entries = [] := rfl

def values (map : OrderedMap Key Value) : List Value := map.entries.map Prod.snd

/-- Put below the first greater key, or over an equal one. -/
def putEntry (key : Key) (value : Value) : List (Key × Value) → List (Key × Value)
  | [] => [(key, value)]
  | entry :: rest =>
      if key < entry.1 then (key, value) :: entry :: rest
      else if key = entry.1 then (key, value) :: rest
      else entry :: putEntry key value rest

theorem mem_put_entry (key : Key) (value : Value) (entries : List (Key × Value))
    (sorted : entries.Pairwise (fun left right => left.1 < right.1))
    (entry : Key × Value) :
    entry ∈ putEntry key value entries ↔
      entry = (key, value) ∨ (entry ∈ entries ∧ entry.1 ≠ key) := by
  induction entries with
  | nil => simp [putEntry]
  | cons head rest ih =>
      have headFirst : ∀ later ∈ rest, head.1 < later.1 := (List.pairwise_cons.mp sorted).1
      have tail := ih (List.pairwise_cons.mp sorted).2
      simp only [putEntry]
      split_ifs with before same
      · -- every stored key is above the new one, so nothing is replaced
        have untouched : ∀ other ∈ head :: rest, other.1 ≠ key := by
          intro other member
          rcases List.mem_cons.mp member with rfl | later
          · exact ne_of_gt before
          · exact ne_of_gt (before.trans (headFirst other later))
        rw [List.mem_cons]
        exact or_congr_right
          ⟨fun member => ⟨member, untouched entry member⟩, fun pair => pair.1⟩
      · have untouched : ∀ other ∈ rest, other.1 ≠ key := by
          intro other later
          rw [same]
          exact ne_of_gt (headFirst other later)
        simp only [List.mem_cons]
        refine or_congr_right
          ⟨fun member => ⟨Or.inr member, untouched entry member⟩, ?_⟩
        rintro ⟨rfl | later, different⟩
        · exact absurd same.symm different
        · exact later
      · have headKept : head.1 ≠ key := fun equal => same equal.symm
        rw [List.mem_cons, tail, List.mem_cons]
        constructor
        · rintro (rfl | placed | ⟨later, different⟩)
          · exact Or.inr ⟨Or.inl rfl, headKept⟩
          · exact Or.inl placed
          · exact Or.inr ⟨Or.inr later, different⟩
        · rintro (placed | ⟨rfl | later, different⟩)
          · exact Or.inr (Or.inl placed)
          · exact Or.inl rfl
          · exact Or.inr (Or.inr ⟨later, different⟩)

theorem put_entry_sorted (key : Key) (value : Value) (entries : List (Key × Value))
    (sorted : entries.Pairwise (fun left right => left.1 < right.1)) :
    (putEntry key value entries).Pairwise (fun left right => left.1 < right.1) := by
  induction entries with
  | nil => simp [putEntry]
  | cons head rest ih =>
      rcases List.pairwise_cons.mp sorted with ⟨headFirst, restSorted⟩
      simp only [putEntry]
      split_ifs with before same
      · refine List.pairwise_cons.mpr ⟨?_, sorted⟩
        intro other member
        rcases List.mem_cons.mp member with rfl | later
        · exact before
        · exact before.trans (headFirst other later)
      · refine List.pairwise_cons.mpr ⟨?_, restSorted⟩
        intro other later
        rw [same]
        exact headFirst other later
      · refine List.pairwise_cons.mpr ⟨?_, ih restSorted⟩
        intro other member
        rcases (mem_put_entry key value rest restSorted other).mp member with rfl | ⟨later, _⟩
        · exact lt_of_le_of_ne (not_lt.mp before) (fun equal => same equal.symm)
        · exact headFirst other later

def put (key : Key) (value : Value) (map : OrderedMap Key Value) : OrderedMap Key Value :=
  ⟨putEntry key value map.entries, put_entry_sorted key value map.entries map.sorted⟩

theorem mem_put (key : Key) (value : Value) (map : OrderedMap Key Value)
    (entry : Key × Value) :
    entry ∈ (map.put key value).entries ↔
      entry = (key, value) ∨ (entry ∈ map.entries ∧ entry.1 ≠ key) :=
  mem_put_entry key value map.entries map.sorted entry

def putAll (entries : List (Key × Value)) (map : OrderedMap Key Value) : OrderedMap Key Value :=
  entries.foldl (fun map entry => map.put entry.1 entry.2) map

/-- An entry is the last one put at its key, or was there before and no entry
was put at its key. -/
theorem mem_put_all (entries : List (Key × Value)) (map : OrderedMap Key Value)
    (entry : Key × Value) :
    entry ∈ (map.putAll entries).entries ↔
      (∃ before after, entries = before ++ entry :: after ∧
          ∀ later ∈ after, later.1 ≠ entry.1) ∨
        (entry ∈ map.entries ∧ ∀ other ∈ entries, other.1 ≠ entry.1) := by
  induction entries generalizing map with
  | nil => simp [putAll]
  | cons first rest ih =>
      have unfolded : map.putAll (first :: rest) = (map.put first.1 first.2).putAll rest := rfl
      rw [unfolded, ih, mem_put]
      constructor
      · rintro (⟨before, after, split, last⟩ | ⟨rfl | ⟨member, different⟩, untouched⟩)
        · exact Or.inl ⟨first :: before, after, by rw [split]; rfl, last⟩
        · exact Or.inl ⟨[], rest, rfl, untouched⟩
        · exact Or.inr ⟨member, List.forall_mem_cons.mpr ⟨different.symm, untouched⟩⟩
      · rintro (⟨before, after, split, last⟩ | ⟨member, untouched⟩)
        · cases before with
          | nil =>
              obtain ⟨rfl, rfl⟩ := List.cons.inj split
              exact Or.inr ⟨Or.inl rfl, last⟩
          | cons head before => exact Or.inl ⟨before, after, (List.cons.inj split).2, last⟩
        · obtain ⟨different, tail⟩ := List.forall_mem_cons.mp untouched
          exact Or.inr ⟨Or.inr ⟨member, different.symm⟩, tail⟩

theorem put_all_keys (entries : List (Key × Value)) (map : OrderedMap Key Value) (key : Key) :
    key ∈ (map.putAll entries).entries.map Prod.fst ↔
      key ∈ entries.map Prod.fst ∨ key ∈ map.entries.map Prod.fst := by
  induction entries generalizing map with
  | nil => simp [putAll]
  | cons first rest ih =>
      have unfolded : map.putAll (first :: rest) = (map.put first.1 first.2).putAll rest := rfl
      have one : key ∈ (map.put first.1 first.2).entries.map Prod.fst ↔
          key = first.1 ∨ key ∈ map.entries.map Prod.fst := by
        simp only [List.mem_map, mem_put]
        constructor
        · rintro ⟨entry, rfl | ⟨member, _⟩, rfl⟩
          · exact Or.inl rfl
          · exact Or.inr ⟨entry, member, rfl⟩
        · rintro (rfl | ⟨entry, member, rfl⟩)
          · exact ⟨first, Or.inl rfl, rfl⟩
          · by_cases same : entry.1 = first.1
            · exact ⟨first, Or.inl rfl, same.symm⟩
            · exact ⟨entry, Or.inr ⟨member, same⟩, rfl⟩
      rw [unfolded, ih, one, List.map_cons, List.mem_cons, or_left_comm, or_assoc]

theorem keys_nodup (map : OrderedMap Key Value) : (map.entries.map Prod.fst).Nodup := by
  rw [List.Nodup, List.pairwise_map]
  exact map.sorted.imp ne_of_lt

theorem put_all_length (entries : List (Key × Value)) :
    (putAll entries ∅).entries.length = (entries.map Prod.fst).toFinset.card := by
  have sameKeys : ((putAll entries ∅).entries.map Prod.fst).Perm (entries.map Prod.fst).dedup := by
    rw [List.perm_ext_iff_of_nodup (keys_nodup _) (List.nodup_dedup _)]
    intro key
    rw [put_all_keys, List.mem_dedup, entries_empty]
    simp
  rw [List.card_toFinset, ← sameKeys.length_eq, List.length_map]

/-- Apply `change` to the value stored under `key`, if there is one. -/
def adjust (key : Key) (change : Value → Value) (map : OrderedMap Key Value) :
    OrderedMap Key Value where
  entries := map.entries.map fun entry =>
    if entry.1 = key then (entry.1, change entry.2) else entry
  sorted := by
    rw [List.pairwise_map]
    refine map.sorted.imp ?_
    intro left right order
    split_ifs <;> exact order

theorem mem_adjust (key : Key) (change : Value → Value) (map : OrderedMap Key Value)
    (entry : Key × Value) :
    entry ∈ (map.adjust key change).entries ↔
      (entry ∈ map.entries ∧ entry.1 ≠ key) ∨
        ∃ value, (key, value) ∈ map.entries ∧ entry = (key, change value) := by
  simp only [adjust, List.mem_map]
  constructor
  · rintro ⟨source, member, rfl⟩
    split_ifs with same
    · exact Or.inr ⟨source.2, by rw [← same]; exact member, by rw [same]⟩
    · exact Or.inl ⟨member, same⟩
  · rintro (⟨member, different⟩ | ⟨value, member, rfl⟩)
    · exact ⟨entry, member, by rw [if_neg different]⟩
    · exact ⟨(key, value), member, by rw [if_pos rfl]⟩

theorem entry_unique (map : OrderedMap Key Value) {left right : Key × Value}
    (leftMember : left ∈ map.entries) (rightMember : right ∈ map.entries)
    (same : left.1 = right.1) : left = right := by
  have apart : map.entries.Pairwise fun first second => first.1 = second.1 → first = second :=
    map.sorted.imp fun order equal => absurd equal (ne_of_lt order)
  have flipped : map.entries.Pairwise fun first second => second.1 = first.1 → second = first :=
    map.sorted.imp fun order equal => absurd equal.symm (ne_of_lt order)
  exact apart.forall_of_forall_of_flip (fun _ _ _ => rfl) flipped leftMember rightMember same

theorem ext_mem {left right : OrderedMap Key Value}
    (same : ∀ entry, entry ∈ left.entries ↔ entry ∈ right.entries) : left = right := by
  have leftNodup : left.entries.Nodup := left.sorted.imp fun order equal => by
    rw [equal] at order
    exact lt_irrefl _ order
  have rightNodup : right.entries.Nodup := right.sorted.imp fun order equal => by
    rw [equal] at order
    exact lt_irrefl _ order
  have permutation := (List.perm_ext_iff_of_nodup leftNodup rightNodup).mpr same
  refine OrderedMap.ext (permutation.eq_of_pairwise ?_ left.sorted right.sorted)
  intro first second _ _ forward backward
  exact absurd (forward.trans backward) (lt_irrefl _)

/-- The greatest entry whose key is at most `key`. -/
def floor (key : Key) (map : OrderedMap Key Value) : Option (Key × Value) :=
  (map.entries.filter fun entry => entry.1 ≤ key).getLast?

/-- The least entry whose key is at least `key`. -/
def ceiling (key : Key) (map : OrderedMap Key Value) : Option (Key × Value) :=
  map.entries.find? fun entry => key ≤ entry.1

theorem floor_eq_none_iff (key : Key) (map : OrderedMap Key Value) :
    map.floor key = none ↔ ∀ entry ∈ map.entries, key < entry.1 := by
  simp [floor]

theorem floor_eq_some_iff (key : Key) (map : OrderedMap Key Value) (entry : Key × Value) :
    map.floor key = some entry ↔
      entry ∈ map.entries ∧ entry.1 ≤ key ∧
        ∀ other ∈ map.entries, other.1 ≤ key → other.1 ≤ entry.1 := by
  have soundness : ∀ found, map.floor key = some found →
      found ∈ map.entries ∧ found.1 ≤ key ∧
        ∀ other ∈ map.entries, other.1 ≤ key → other.1 ≤ found.1 := by
    intro found last
    rcases List.getLast?_eq_some_iff.mp last with ⟨earlier, split⟩
    have kept : found ∈ map.entries.filter fun entry => entry.1 ≤ key := by
      rw [split]
      simp
    rcases List.mem_filter.mp kept with ⟨member, below⟩
    refine ⟨member, by simpa using below, ?_⟩
    intro other otherMember otherBelow
    have otherKept : other ∈ map.entries.filter fun entry => entry.1 ≤ key :=
      List.mem_filter.mpr ⟨otherMember, by simpa using otherBelow⟩
    have order := map.sorted.filter (fun entry => decide (entry.1 ≤ key))
    rw [split] at otherKept order
    rcases List.mem_append.mp otherKept with before | same
    · exact le_of_lt ((List.pairwise_append.mp order).2.2 other before found (by simp))
    · rw [List.mem_singleton.mp same]
  constructor
  · exact soundness entry
  · rintro ⟨member, below, greatest⟩
    cases found : map.floor key with
    | none => exact absurd ((floor_eq_none_iff key map).mp found entry member) (not_lt.mpr below)
    | some other =>
        rcases soundness other found with ⟨otherMember, otherBelow, otherGreatest⟩
        have same : other.1 = entry.1 :=
          le_antisymm (greatest other otherMember otherBelow) (otherGreatest entry member below)
        rw [map.entry_unique otherMember member same]

theorem ceiling_eq_none_iff (key : Key) (map : OrderedMap Key Value) :
    map.ceiling key = none ↔ ∀ entry ∈ map.entries, entry.1 < key := by
  simp [ceiling, List.find?_eq_none]

theorem ceiling_eq_some_iff (key : Key) (map : OrderedMap Key Value) (entry : Key × Value) :
    map.ceiling key = some entry ↔
      entry ∈ map.entries ∧ key ≤ entry.1 ∧
        ∀ other ∈ map.entries, key ≤ other.1 → entry.1 ≤ other.1 := by
  have soundness : ∀ found, map.ceiling key = some found →
      found ∈ map.entries ∧ key ≤ found.1 ∧
        ∀ other ∈ map.entries, key ≤ other.1 → found.1 ≤ other.1 := by
    intro found first
    rcases List.find?_eq_some_iff_append.mp first with ⟨above, earlier, later, split, skipped⟩
    refine ⟨by rw [split]; simp, by simpa using above, ?_⟩
    intro other otherMember otherAbove
    have order := map.sorted
    rw [split] at otherMember order
    rcases List.mem_append.mp otherMember with before | after
    · exact absurd otherAbove (by simpa using skipped other before)
    · rcases List.mem_cons.mp after with rfl | beyond
      · exact le_refl _
      · have tail := (List.pairwise_append.mp order).2.1
        exact le_of_lt ((List.pairwise_cons.mp tail).1 other beyond)
  constructor
  · exact soundness entry
  · rintro ⟨member, above, least⟩
    cases found : map.ceiling key with
    | none => exact absurd ((ceiling_eq_none_iff key map).mp found entry member) (not_lt.mpr above)
    | some other =>
        rcases soundness other found with ⟨otherMember, otherAbove, otherLeast⟩
        have same : other.1 = entry.1 :=
          le_antisymm (otherLeast entry member above) (least other otherMember otherAbove)
        rw [map.entry_unique otherMember member same]

section Splits

/-! A key splits the entries into those below and those above it, with an
entry of its own between them or not. -/

variable {lower upper : List (Key × Value)} {key : Key}

theorem put_entry_skip (value : Value) (rest : List (Key × Value))
    (below : ∀ entry ∈ lower, entry.1 < key) :
    putEntry key value (lower ++ rest) = lower ++ putEntry key value rest := by
  induction lower with
  | nil => rfl
  | cons entry lower ih =>
      have first := below entry List.mem_cons_self
      rw [List.cons_append, putEntry, if_neg (not_lt.mpr first.le), if_neg (ne_of_gt first),
        ih fun other member => below other (List.mem_cons_of_mem entry member), List.cons_append]

theorem put_entry_split (value : Value) (below : ∀ entry ∈ lower, entry.1 < key)
    (above : ∀ entry ∈ upper, key < entry.1) :
    putEntry key value (lower ++ upper) = lower ++ (key, value) :: upper := by
  rw [put_entry_skip value upper below]
  cases upper with
  | nil => rfl
  | cons entry upper => rw [putEntry, if_pos (above entry List.mem_cons_self)]

theorem put_entry_replace (value old : Value) (below : ∀ entry ∈ lower, entry.1 < key) :
    putEntry key value (lower ++ (key, old) :: upper) = lower ++ (key, value) :: upper := by
  rw [put_entry_skip value _ below, putEntry, if_neg (lt_irrefl key), if_pos rfl]

variable {map : OrderedMap Key Value}

theorem floor_split (split : map.entries = lower ++ upper)
    (below : ∀ entry ∈ lower, entry.1 < key) (above : ∀ entry ∈ upper, key < entry.1) :
    map.floor key = lower.getLast? := by
  have kept : lower.filter (fun entry => entry.1 ≤ key) = lower :=
    List.filter_eq_self.mpr fun entry member => decide_eq_true (below entry member).le
  have dropped : upper.filter (fun entry => entry.1 ≤ key) = [] :=
    List.filter_eq_nil_iff.mpr fun entry member => by
      simpa using above entry member
  rw [floor, split, List.filter_append, kept, dropped, List.append_nil]

theorem ceiling_split (split : map.entries = lower ++ upper)
    (below : ∀ entry ∈ lower, entry.1 < key) (above : ∀ entry ∈ upper, key < entry.1) :
    map.ceiling key = upper.head? := by
  have skipped : lower.find? (fun entry => key ≤ entry.1) = none :=
    List.find?_eq_none.mpr fun entry member => by
      simpa using below entry member
  rw [ceiling, split, List.find?_append, skipped, Option.none_or]
  cases upper with
  | nil => rfl
  | cons entry upper =>
      exact List.find?_cons_of_pos (decide_eq_true (above entry List.mem_cons_self).le)

theorem floor_of_mem {value : Value} (member : (key, value) ∈ map.entries) :
    map.floor key = some (key, value) :=
  (floor_eq_some_iff key map (key, value)).mpr ⟨member, le_refl _, fun _ _ below => below⟩

theorem ceiling_of_mem {value : Value} (member : (key, value) ∈ map.entries) :
    map.ceiling key = some (key, value) :=
  (ceiling_eq_some_iff key map (key, value)).mpr ⟨member, le_refl _, fun _ _ above => above⟩

end Splits

def get (key : Key) (map : OrderedMap Key Value) : Option Value :=
  (map.entries.find? fun entry => entry.1 = key).map Prod.snd

theorem get_split {map : OrderedMap Key Value} {key : Key} {lower upper : List (Key × Value)}
    (split : map.entries = lower ++ upper) (below : ∀ entry ∈ lower, entry.1 < key)
    (above : ∀ entry ∈ upper, key < entry.1) : map.get key = none := by
  rw [get, split, Option.map_eq_none_iff, List.find?_eq_none]
  intro entry member
  rcases List.mem_append.mp member with early | late
  · simpa using ne_of_lt (below entry early)
  · simpa using ne_of_gt (above entry late)

theorem get_of_mem {map : OrderedMap Key Value} {key : Key} {value : Value}
    (member : (key, value) ∈ map.entries) : map.get key = some value := by
  cases found : map.entries.find? fun entry => entry.1 = key with
  | none =>
      have absent := List.find?_eq_none.mp found (key, value) member
      exact absurd (decide_eq_true rfl) absent
  | some entry =>
      have same : entry.1 = key := by simpa using List.find?_some found
      have unique := map.entry_unique (List.mem_of_find?_eq_some found) member same
      rw [get, found, unique]
      rfl

section MapValues

variable {Image : Type*} (f : Value → Image)

def mapValues (map : OrderedMap Key Value) : OrderedMap Key Image where
  entries := map.entries.map fun entry => (entry.1, f entry.2)
  sorted := List.pairwise_map.mpr map.sorted

theorem map_values_put (map : OrderedMap Key Value) (key : Key) (value : Value) :
    (map.put key value).mapValues f = (map.mapValues f).put key (f value) := by
  apply OrderedMap.ext
  change (putEntry key value map.entries).map (fun entry => (entry.1, f entry.2)) =
    putEntry key (f value) (map.entries.map fun entry => (entry.1, f entry.2))
  induction map.entries with
  | nil => rfl
  | cons entry rest ih =>
      rw [List.map_cons, putEntry, putEntry, ← ih]
      split_ifs <;> rfl

theorem map_values_adjust (map : OrderedMap Key Value) (key : Key) (change : Value → Value)
    (changeImage : Image → Image) (commutes : ∀ value, f (change value) = changeImage (f value)) :
    (map.adjust key change).mapValues f = (map.mapValues f).adjust key changeImage := by
  apply OrderedMap.ext
  simp only [mapValues, adjust, List.map_map]
  refine List.map_congr_left fun entry _ => ?_
  simp only [Function.comp_apply]
  split_ifs
  · rw [commutes]
  · rfl

theorem map_values_floor (map : OrderedMap Key Value) (key : Key) :
    (map.mapValues f).floor key = (map.floor key).map fun entry => (entry.1, f entry.2) := by
  rw [floor, floor, mapValues, List.filter_map, List.getLast?_map]
  rfl

theorem map_values_ceiling (map : OrderedMap Key Value) (key : Key) :
    (map.mapValues f).ceiling key = (map.ceiling key).map fun entry => (entry.1, f entry.2) := by
  rw [ceiling, ceiling, mapValues, List.find?_map]
  rfl

theorem map_values_congr {g : Value → Image} (map : OrderedMap Key Value)
    (same : ∀ entry ∈ map.entries, f entry.2 = g entry.2) : map.mapValues f = map.mapValues g := by
  apply OrderedMap.ext
  exact List.map_congr_left fun entry member => by rw [same entry member]

end MapValues

section Resolved

variable {Pointer : Type*} {held : Pointer → Option Value}

/-- What a query finds through pointers, and the same query on the values. -/
inductive FoundAlike (held : Pointer → Option Value) :
    Option (Key × Pointer) → Option (Key × Value) → Prop where
  | nothing : FoundAlike held none none
  | entry {key : Key} {pointer : Pointer} {value : Value} :
      held pointer = some value → FoundAlike held (some (key, pointer)) (some (key, value))

omit [LinearOrder Key] in
theorem found_alike {pointed : Option (Key × Pointer)} {seen : Option (Key × Value)}
    (both : pointed.map (fun entry => (entry.1, held entry.2)) =
      seen.map fun entry => (entry.1, some entry.2)) : FoundAlike held pointed seen := by
  cases pointed with
  | none =>
      rw [Option.map_none, eq_comm, Option.map_eq_none_iff] at both
      rw [both]
      exact .nothing
  | some entry =>
      obtain ⟨key, pointer⟩ := entry
      rw [Option.map_some, eq_comm, Option.map_eq_some_iff] at both
      obtain ⟨⟨other, value⟩, rfl, same⟩ := both
      obtain ⟨rfl, here⟩ := Prod.mk.inj same
      exact .entry here.symm

variable {pointers : OrderedMap Key Pointer} {map : OrderedMap Key Value}
  (resolved : pointers.mapValues held = map.mapValues some) (key : Key)

include resolved in
theorem floor_found_alike : FoundAlike held (pointers.floor key) (map.floor key) := by
  have both := congrArg (floor key) resolved
  rw [map_values_floor, map_values_floor] at both
  exact found_alike both

include resolved in
theorem ceiling_found_alike : FoundAlike held (pointers.ceiling key) (map.ceiling key) := by
  have both := congrArg (ceiling key) resolved
  rw [map_values_ceiling, map_values_ceiling] at both
  exact found_alike both

end Resolved

def Distinct (map : OrderedMap Key Value) : Prop :=
  ∀ first ∈ map.entries, ∀ second ∈ map.entries, first.2 = second.2 → first.1 = second.1

theorem Distinct.put {map : OrderedMap Key Value} (distinct : map.Distinct) (key : Key)
    {value : Value} (fresh : ∀ entry ∈ map.entries, entry.2 ≠ value) :
    (map.put key value).Distinct := by
  intro first firstMember second secondMember same
  rcases (mem_put key value map first).mp firstMember with rfl | ⟨firstOld, _⟩ <;>
    rcases (mem_put key value map second).mp secondMember with rfl | ⟨secondOld, _⟩
  · rfl
  · exact absurd same.symm (fresh second secondOld)
  · exact absurd same (fresh first firstOld)
  · exact distinct first firstOld second secondOld same

end OrderedMap

end WPerf.Library
