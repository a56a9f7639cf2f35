import Mathlib.Algebra.BigOperators.Group.List.Basic
import Mathlib.Data.Finmap

/-!
# Tallies

A table of weights that grows by addition: an item adds its weight under its
key, and an item without a key adds nothing. A run of items leaves under each
key the sum of the weights added there, so it does not depend on their order.
-/

namespace WPerf.Library.Tally

set_option autoImplicit false

variable {Key Weight Item : Type*} [DecidableEq Key] [AddCommMonoid Weight]

/-- A missing key counts as zero. -/
def add (key : Key) (weight : Weight) (table : Finmap fun _ : Key => Weight) :
    Finmap fun _ : Key => Weight :=
  table.insert key ((table.lookup key).getD 0 + weight)

def addItem (keyOf : Item → Option Key) (weight : Item → Weight)
    (table : Finmap fun _ : Key => Weight) (item : Item) : Finmap fun _ : Key => Weight :=
  match keyOf item with
  | none => table
  | some key => add key (weight item) table

def addAll (keyOf : Item → Option Key) (weight : Item → Weight) (items : List Item)
    (table : Finmap fun _ : Key => Weight) : Finmap fun _ : Key => Weight :=
  items.foldl (addItem keyOf weight) table

def under (keyOf : Item → Option Key) (key : Key) (items : List Item) : List Item :=
  items.filter fun item => keyOf item = some key

variable (keyOf : Item → Option Key) (weight : Item → Weight)

theorem mem_under (key : Key) (items : List Item) (item : Item) :
    item ∈ under keyOf key items ↔ item ∈ items ∧ keyOf item = some key := by
  simp [under]

theorem lookup_add_item (key : Key) (table : Finmap fun _ : Key => Weight) (item : Item) :
    (addItem keyOf weight table item).lookup key =
      if keyOf item = some key then some ((table.lookup key).getD 0 + weight item)
      else table.lookup key := by
  unfold addItem
  cases own : keyOf item with
  | none => rw [if_neg (Option.some_ne_none key).symm]
  | some other =>
      by_cases same : other = key
      · rw [if_pos (congrArg some same), same]
        exact Finmap.lookup_insert table
      · rw [if_neg fun equal => same (Option.some.inj equal)]
        exact Finmap.lookup_insert_of_ne table fun equal => same equal.symm

/-- A key that no item has keeps its entry, and any other one gains the sum of
its items' weights. -/
theorem lookup_add_all (key : Key) (items : List Item) (table : Finmap fun _ : Key => Weight) :
    (addAll keyOf weight items table).lookup key =
      if under keyOf key items = [] then table.lookup key
      else some ((table.lookup key).getD 0 + ((under keyOf key items).map weight).sum) := by
  induction items generalizing table with
  | nil => rfl
  | cons item rest ih =>
      have unfolded : addAll keyOf weight (item :: rest) table =
          addAll keyOf weight rest (addItem keyOf weight table item) := rfl
      rw [unfolded, ih, lookup_add_item]
      by_cases own : keyOf item = some key
      · have kept : under keyOf key (item :: rest) = item :: under keyOf key rest := by
          simp [under, own]
        rw [if_pos own, kept, if_neg (List.cons_ne_nil _ _), List.map_cons, List.sum_cons,
          ← add_assoc]
        by_cases last : under keyOf key rest = []
        · rw [if_pos last, last, List.map_nil, List.sum_nil, add_zero]
        · rw [if_neg last]
          rfl
      · have skipped : under keyOf key (item :: rest) = under keyOf key rest := by
          simp [under, own]
        rw [if_neg own, skipped]

theorem add_all_perm {items other : List Item} (reordered : items.Perm other)
    (table : Finmap fun _ : Key => Weight) :
    addAll keyOf weight items table = addAll keyOf weight other table := by
  apply Finmap.ext_lookup
  intro key
  have selected : (under keyOf key items).Perm (under keyOf key other) := reordered.filter _
  have total := (selected.map weight).sum_eq
  have empty : under keyOf key items = [] ↔ under keyOf key other = [] := by
    constructor
    · intro absent
      rw [absent] at selected
      exact selected.nil_eq.symm
    · intro absent
      rw [absent] at selected
      exact selected.eq_nil
  rw [lookup_add_all, lookup_add_all, total]
  exact if_congr empty rfl rfl

theorem add_all_append (front back : List Item) (table : Finmap fun _ : Key => Weight) :
    addAll keyOf weight (front ++ back) table =
      addAll keyOf weight back (addAll keyOf weight front table) :=
  List.foldl_append

end WPerf.Library.Tally
