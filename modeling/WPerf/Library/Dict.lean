import Mathlib.Data.List.Nodup
import Mathlib.Tactic.SplitIfs

/-!
# Dictionaries in insertion order

A list of keys with values, no key twice. Assigning to a key replaces its
value in place or appends a new entry, so after any run of assignments a key
holds the value it was assigned last.
-/

namespace WPerf.Library

set_option autoImplicit false

variable {Key Value : Type*} [DecidableEq Key]

/-- An association list in which `assign` replaces the first entry of a key. -/
def assign (key : Key) (value : Value) : List (Key × Value) → List (Key × Value)
  | [] => [(key, value)]
  | entry :: rest => if entry.1 = key then (key, value) :: rest else entry :: assign key value rest

theorem assign_keys (key : Key) (value : Value) (entries : List (Key × Value)) :
    (assign key value entries).map Prod.fst =
      if key ∈ entries.map Prod.fst then entries.map Prod.fst
      else entries.map Prod.fst ++ [key] := by
  induction entries with
  | nil => rfl
  | cons entry rest ih =>
      unfold assign
      by_cases here : entry.1 = key
      · simp [here]
      · rw [if_neg here, List.map_cons, ih]
        have other : ¬key = entry.1 := fun same => here same.symm
        split_ifs with later whole whole
        · rfl
        · exact absurd (List.mem_cons_of_mem entry.1 later) whole
        · rcases List.mem_cons.mp whole with same | inRest
          · exact absurd same other
          · exact absurd inRest later
        · rfl

structure Dict (Key Value : Type*) where
  entries : List (Key × Value)
  distinct : (entries.map Prod.fst).Nodup

namespace Dict

def empty : Dict Key Value := ⟨[], List.nodup_nil⟩

def set (dict : Dict Key Value) (key : Key) (value : Value) : Dict Key Value where
  entries := assign key value dict.entries
  distinct := by
    rw [assign_keys]
    split_ifs with known
    · exact dict.distinct
    · apply List.nodup_append.mpr
      refine ⟨dict.distinct, List.nodup_singleton key, ?_⟩
      intro old member new single same
      rw [List.mem_singleton.mp single] at same
      rw [same] at member
      exact known member

def get? (dict : Dict Key Value) (key : Key) : Option Value :=
  (dict.entries.find? fun entry => entry.1 = key).map Prod.snd

def setAll (dict : Dict Key Value) (pairs : List (Key × Value)) : Dict Key Value :=
  pairs.foldl (fun dict pair => dict.set pair.1 pair.2) dict

/-- The value a run of assignments gives a key last. -/
def last (key : Key) : List (Key × Value) → Option Value
  | [] => none
  | pair :: rest => (last key rest).or (if pair.1 = key then some pair.2 else none)

theorem mem_entries_iff (dict : Dict Key Value) (key : Key) (value : Value) :
    (key, value) ∈ dict.entries ↔ dict.get? key = some value := by
  obtain ⟨entries, distinct⟩ := dict
  unfold get?
  induction entries with
  | nil => simp
  | cons entry rest ih =>
      obtain ⟨fresh, restDistinct⟩ := List.nodup_cons.mp distinct
      rw [List.mem_cons, List.find?_cons]
      by_cases here : entry.1 = key
      · have notLater : (key, value) ∉ rest := by
          intro later
          apply fresh
          rw [here]
          exact List.mem_map_of_mem later
        simp [here, notLater, Prod.ext_iff, eq_comm]
      · have different : (key, value) ≠ entry := by
          intro same
          exact here (by rw [← same])
        simpa [here, different] using ih restDistinct

theorem filter_key (dict : Dict Key Value) (key : Key) (value : Value)
    (found : dict.get? key = some value) :
    dict.entries.filter (fun entry => entry.1 = key) = [(key, value)] := by
  have stored := (dict.mem_entries_iff key value).mpr found
  obtain ⟨front, back, split⟩ := List.append_of_mem stored
  have distinct := dict.distinct
  rw [split, List.map_append, List.map_cons] at distinct
  obtain ⟨_, tail, apart⟩ := List.nodup_append.mp distinct
  have before : ∀ entry ∈ front, ¬decide (entry.1 = key) = true := by
    intro entry member same
    exact apart entry.1 (List.mem_map_of_mem member) key List.mem_cons_self (of_decide_eq_true same)
  have behind : ∀ entry ∈ back, ¬decide (entry.1 = key) = true := by
    intro entry member same
    have fresh := (List.nodup_cons.mp tail).1
    apply fresh
    rw [← of_decide_eq_true same]
    exact List.mem_map.mpr ⟨entry, member, rfl⟩
  rw [split, List.filter_append, List.filter_eq_nil_iff.mpr before, List.nil_append,
    List.filter_cons_of_pos (by simp), List.filter_eq_nil_iff.mpr behind]

theorem get_set (dict : Dict Key Value) (key other : Key) (value : Value) :
    (dict.set key value).get? other = if key = other then some value else dict.get? other := by
  unfold get? set
  dsimp only
  induction dict.entries with
  | nil =>
      unfold assign
      split_ifs with same <;> simp [same]
  | cons entry rest ih =>
      unfold assign
      by_cases here : entry.1 = key
      · rw [if_pos here]
        by_cases same : key = other
        · simp [same]
        · simp [same, here]
      · rw [if_neg here, List.find?_cons, List.find?_cons]
        by_cases found : entry.1 = other
        · have apart : ¬key = other := fun same => here (found.trans same.symm)
          simp [found, apart]
        · simpa [found] using ih

theorem get_set_all (dict : Dict Key Value) (pairs : List (Key × Value)) (key : Key) :
    (dict.setAll pairs).get? key = (last key pairs).or (dict.get? key) := by
  induction pairs generalizing dict with
  | nil => simp [setAll, last]
  | cons pair rest ih =>
      change ((dict.set pair.1 pair.2).setAll rest).get? key = _
      rw [ih, get_set, last, Option.or_assoc]
      congr 1
      split_ifs with same <;> simp

theorem last_append (key : Key) (front back : List (Key × Value)) :
    last key (front ++ back) = (last key back).or (last key front) := by
  induction front with
  | nil => simp [last]
  | cons pair front ih => rw [List.cons_append, last, ih, last, Option.or_assoc]

theorem mem_of_last (key : Key) (value : Value) (pairs : List (Key × Value))
    (found : last key pairs = some value) : (key, value) ∈ pairs := by
  induction pairs with
  | nil => cases found
  | cons pair rest ih =>
      rw [last, Option.or_eq_some_iff] at found
      rcases found with later | ⟨_, here⟩
      · exact List.mem_cons_of_mem pair (ih later)
      · split_ifs at here with same
        rw [← Option.some.inj here, ← same]
        exact List.mem_cons_self

theorem last_none_iff (key : Key) (pairs : List (Key × Value)) :
    last key pairs = none ↔ key ∉ pairs.map Prod.fst := by
  induction pairs with
  | nil => simp [last]
  | cons pair rest ih =>
      rw [last, Option.or_eq_none_iff, ih, List.map_cons, List.mem_cons, not_or, and_comm]
      apply and_congr_left
      intro _
      split_ifs with same
      · simp [same]
      · simp [Ne.symm same]

theorem set_all_entries (dict : Dict Key Value) (pairs : List (Key × Value))
    (fresh : ((dict.entries ++ pairs).map Prod.fst).Nodup) :
    (dict.setAll pairs).entries = dict.entries ++ pairs := by
  induction pairs generalizing dict with
  | nil => simp [setAll]
  | cons pair rest ih =>
      have appended : ∀ entries : List (Key × Value), pair.1 ∉ entries.map Prod.fst →
          assign pair.1 pair.2 entries = entries ++ [pair] := by
        intro entries
        induction entries with
        | nil => exact fun _ => rfl
        | cons entry entries step =>
            intro missing
            rw [List.map_cons, List.mem_cons, not_or] at missing
            unfold assign
            rw [if_neg fun same => missing.1 same.symm, step missing.2]
            rfl
      have missing : pair.1 ∉ dict.entries.map Prod.fst := by
        rw [List.map_append, List.map_cons] at fresh
        have apart := (List.nodup_append.mp fresh).2.2
        intro known
        exact apart pair.1 known pair.1 List.mem_cons_self rfl
      have stored : (dict.set pair.1 pair.2).entries = dict.entries ++ [pair] :=
        appended dict.entries missing
      change ((dict.set pair.1 pair.2).setAll rest).entries = _
      rw [ih, stored]
      · simp
      · rw [stored]
        simpa using fresh

end Dict

end WPerf.Library
