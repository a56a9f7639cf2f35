import Mathlib.Data.List.Perm.Basic

/-!
# Runs of fallible steps

A step that may fail is a function into `Except`. Inversion of one map, of one
bind and of a run over a list, and the invariant rule for successful runs. A
step into `Option` whose failure does not depend on the state fails item by
item.
-/

namespace WPerf.Library.Fallible

set_option autoImplicit false

variable {Error Value Result State Item : Type}

@[simp]
theorem ok_bind (value : Value) (next : Value → Except Error Result) :
    (Except.ok value >>= next) = next value := rfl

theorem bind_eq_ok_iff (first : Except Error Value) (next : Value → Except Error Result)
    (result : Result) :
    (first >>= next) = .ok result ↔ ∃ value, first = .ok value ∧ next value = .ok result := by
  cases first with
  | error fault =>
      constructor
      · intro run
        cases run
      · intro ⟨value, failed, _⟩
        cases failed
  | ok value =>
      constructor
      · exact fun run => ⟨value, rfl, run⟩
      · intro ⟨other, same, run⟩
        rw [Except.ok.inj same]
        exact run

theorem map_eq_ok_iff (first : Except Error Value) (f : Value → Result) (result : Result) :
    first.map f = .ok result ↔ ∃ value, first = .ok value ∧ f value = result := by
  cases first with
  | error fault =>
      constructor
      · intro run
        cases run
      · intro ⟨value, failed, _⟩
        cases failed
  | ok value =>
      constructor
      · exact fun run => ⟨value, rfl, Except.ok.inj run⟩
      · intro ⟨other, same, made⟩
        rw [Except.ok.inj same]
        exact congrArg Except.ok made

theorem foldlM_cons_eq_ok_iff (step : State → Item → Except Error State) (item : Item)
    (rest : List Item) (before after : State) :
    (item :: rest).foldlM step before = .ok after ↔
      ∃ middle, step before item = .ok middle ∧ rest.foldlM step middle = .ok after := by
  rw [List.foldlM_cons]
  exact bind_eq_ok_iff _ _ after

/-- An invariant of every successful step is an invariant of every successful
run. -/
theorem foldlM_invariant (step : State → Item → Except Error State) (invariant : State → Prop)
    (items : List Item)
    (keeps : ∀ item ∈ items, ∀ before after,
      invariant before → step before item = .ok after → invariant after)
    {before after : State} (holds : invariant before)
    (run : items.foldlM step before = .ok after) : invariant after := by
  induction items generalizing before with
  | nil =>
      have same : before = after := Except.ok.inj run
      rw [← same]
      exact holds
  | cons item rest ih =>
      rcases (foldlM_cons_eq_ok_iff step item rest before after).mp run with
        ⟨middle, first, remaining⟩
      apply ih
      · intro other member
        exact keeps other (List.mem_cons_of_mem item member)
      · exact keeps item List.mem_cons_self before middle holds first
      · exact remaining

theorem mapM_cons_eq_ok_iff (load : Item → Except Error Value) (item : Item) (rest : List Item)
    (values : List Value) :
    (item :: rest).mapM load = .ok values ↔
      ∃ value others, load item = .ok value ∧ rest.mapM load = .ok others ∧
        value :: others = values := by
  rw [List.mapM_cons, bind_eq_ok_iff]
  constructor
  · intro ⟨value, first, later⟩
    obtain ⟨others, loaded, same⟩ := (bind_eq_ok_iff _ _ values).mp later
    exact ⟨value, others, first, loaded, Except.ok.inj same⟩
  · intro ⟨value, others, first, loaded, same⟩
    exact ⟨value, first, (bind_eq_ok_iff _ _ values).mpr ⟨others, loaded, congrArg _ same⟩⟩

theorem mapM_ok (load : Item → Except Error Value) (value : Item → Value) (items : List Item)
    (each : ∀ item ∈ items, load item = .ok (value item)) :
    items.mapM load = .ok (items.map value) := by
  induction items with
  | nil => rfl
  | cons item rest ih =>
      rw [List.mapM_cons, each item List.mem_cons_self,
        ih fun other member => each other (List.mem_cons_of_mem item member)]
      rfl

/-- If a step fails or not whatever the state is, a run fails exactly when one
of its steps does. -/
theorem foldlM_isSome_iff (step : State → Item → Option State) (accepts : Item → Prop)
    (decides : ∀ state item, (step state item).isSome ↔ accepts item)
    (items : List Item) (state : State) :
    (items.foldlM step state).isSome ↔ ∀ item ∈ items, accepts item := by
  induction items generalizing state with
  | nil => simp
  | cons item rest ih =>
      rw [List.foldlM_cons, List.forall_mem_cons, ← decides state item]
      cases first : step state item with
      | none => simp
      | some next =>
          rw [Option.isSome_some]
          simpa using ih next

end WPerf.Library.Fallible
