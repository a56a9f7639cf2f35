import Mathlib.Algebra.BigOperators.Group.List.Basic
import Mathlib.Data.List.DropRight
import WPerf.Library.Fallible
import WPerf.Library.Word

/-!
# Runs of a machine

A machine is a fallible step function. A run takes a list of operations from a
state, and its steps are the operations with the states that they found. Four
rules: when no run fails, when a property holds of every state a run visits,
when a run ends where a run of a total machine ends, and what a counter has
grown by since the latest step that starts a session.
-/

namespace WPerf.Library.Runs

set_option autoImplicit false

variable {Error State Op : Type} (step : State → Op → Except Error State)

def run (state : State) (ops : List Op) : Except Error State := ops.foldlM step state

def steps (state : State) : List Op → List (State × Op)
  | [] => []
  | op :: rest =>
      match step state op with
      | .ok next => (state, op) :: steps next rest
      | .error _ => []

/-- The states a run reaches, one after each operation. -/
def visited (state : State) : List Op → List State
  | [] => []
  | op :: rest =>
      match step state op with
      | .ok next => next :: visited next rest
      | .error _ => []

variable {step}

theorem run_cons_iff (state final : State) (op : Op) (rest : List Op) :
    run step state (op :: rest) = .ok final ↔
      ∃ next, step state op = .ok next ∧ run step next rest = .ok final :=
  Fallible.foldlM_cons_eq_ok_iff step op rest state final

theorem run_append_iff (state final : State) (front back : List Op) :
    run step state (front ++ back) = .ok final ↔
      ∃ middle, run step state front = .ok middle ∧ run step middle back = .ok final := by
  unfold run
  rw [List.foldlM_append]
  exact Fallible.bind_eq_ok_iff _ _ final

theorem steps_cons (state next : State) (op : Op) (rest : List Op)
    (first : step state op = .ok next) :
    steps step state (op :: rest) = (state, op) :: steps step next rest := by
  rw [steps, first]

theorem visited_cons (state next : State) (op : Op) (rest : List Op)
    (first : step state op = .ok next) :
    visited step state (op :: rest) = next :: visited step next rest := by
  rw [visited, first]

theorem visited_length (state final : State) (ops : List Op)
    (ran : run step state ops = .ok final) : (visited step state ops).length = ops.length := by
  induction ops generalizing state with
  | nil => rfl
  | cons op rest ih =>
      obtain ⟨next, first, remaining⟩ := (run_cons_iff state final op rest).mp ran
      rw [visited_cons state next op rest first, List.length_cons, List.length_cons,
        ih next remaining]

section Invariant

variable {invariant : State → Prop}

/-- If failing does not depend on the state, a run fails exactly when one of
its operations does. -/
theorem run_ok_iff (accepts : Op → Prop)
    (decides : ∀ state op, invariant state → ((∃ next, step state op = .ok next) ↔ accepts op))
    (keeps : ∀ state op next, invariant state → step state op = .ok next → invariant next)
    (state : State) (holds : invariant state) (ops : List Op) :
    (∃ final, run step state ops = .ok final) ↔ ∀ op ∈ ops, accepts op := by
  induction ops generalizing state with
  | nil => exact iff_of_true ⟨state, rfl⟩ fun op member => absurd member List.not_mem_nil
  | cons op rest ih =>
      rw [List.forall_mem_cons, ← decides state op holds]
      constructor
      · intro ⟨final, ran⟩
        obtain ⟨next, first, remaining⟩ := (run_cons_iff state final op rest).mp ran
        exact ⟨⟨next, first⟩, (ih next (keeps state op next holds first)).mp ⟨final, remaining⟩⟩
      · intro ⟨⟨next, first⟩, later⟩
        obtain ⟨final, remaining⟩ := (ih next (keeps state op next holds first)).mpr later
        exact ⟨final, (run_cons_iff state final op rest).mpr ⟨next, first, remaining⟩⟩

theorem visited_invariant
    (keeps : ∀ state op next, invariant state → step state op = .ok next → invariant next)
    (state : State) (holds : invariant state) (ops : List Op) :
    ∀ next ∈ visited step state ops, invariant next := by
  induction ops generalizing state with
  | nil => exact fun next member => absurd member List.not_mem_nil
  | cons op rest ih =>
      cases first : step state op with
      | error fault =>
          rw [visited, first]
          exact fun next member => absurd member List.not_mem_nil
      | ok next =>
          have kept := keeps state op next holds first
          rw [visited_cons state next op rest first, List.forall_mem_cons]
          exact ⟨kept, ih next kept⟩

/-- A property that each step keeps exactly on a condition holds of all states
a run visits exactly when all its steps meet the condition. -/
theorem visited_all_iff
    (keeps : ∀ state op next, invariant state → step state op = .ok next → invariant next)
    (property : State → Prop) (condition : State → Op → Prop)
    (decides : ∀ state op next, invariant state → property state → step state op = .ok next →
      (property next ↔ condition state op))
    (state : State) (sound : invariant state) (holds : property state) (ops : List Op) :
    (∀ next ∈ visited step state ops, property next) ↔
      ∀ pair ∈ steps step state ops, condition pair.1 pair.2 := by
  induction ops generalizing state with
  | nil =>
      exact iff_of_true (fun next member => absurd member List.not_mem_nil)
        fun pair member => absurd member List.not_mem_nil
  | cons op rest ih =>
      cases first : step state op with
      | error fault =>
          rw [visited, steps, first]
          exact iff_of_true (fun next member => absurd member List.not_mem_nil)
            fun pair member => absurd member List.not_mem_nil
      | ok next =>
          have decided := decides state op next sound holds first
          rw [visited_cons state next op rest first, steps_cons state next op rest first,
            List.forall_mem_cons, List.forall_mem_cons, decided]
          apply and_congr_right
          intro met
          exact ih next (keeps state op next sound first) (decided.mpr met)

end Invariant

/-- A machine whose every step does what a total one does never fails, and
ends where the total one ends. -/
theorem run_simulates {Abstract : Type} (relation : State → Abstract → Prop)
    (next : Abstract → Op → Abstract)
    (steps : ∀ state abstract op, relation state abstract →
      ∃ later, step state op = .ok later ∧ relation later (next abstract op))
    (state : State) (abstract : Abstract) (related : relation state abstract) (ops : List Op) :
    ∃ final, run step state ops = .ok final ∧ relation final (ops.foldl next abstract) := by
  induction ops generalizing state abstract with
  | nil => exact ⟨state, rfl, related⟩
  | cons op rest ih =>
      obtain ⟨later, first, relatedLater⟩ := steps state abstract op related
      obtain ⟨final, ran, relatedFinal⟩ := ih later (next abstract op) relatedLater
      exact ⟨final, (run_cons_iff state final op rest).mpr ⟨later, first, ran⟩, relatedFinal⟩

/-- Two outcomes are alike if both are the same failure or both end in related
states. -/
inductive Alike {Abstract : Type} (relation : State → Abstract → Prop) :
    Except Error State → Except Error Abstract → Prop where
  | failed (fault : Error) : Alike relation (.error fault) (.error fault)
  | ended {state : State} {abstract : Abstract} :
      relation state abstract → Alike relation (.ok state) (.ok abstract)

theorem Alike.bind {Abstract Result Image : Type} {relation : State → Abstract → Prop}
    {later : Result → Image → Prop} {first : Except Error State} {second : Except Error Abstract}
    (alike : Alike relation first second) {next : State → Except Error Result}
    {follow : Abstract → Except Error Image}
    (steps : ∀ state abstract, relation state abstract → Alike later (next state) (follow abstract)) :
    Alike later (first >>= next) (second >>= follow) := by
  cases alike with
  | failed fault => exact .failed fault
  | ended related => exact steps _ _ related

theorem Alike.map_eq {Abstract Seen : Type} {relation : State → Abstract → Prop}
    {first : Except Error State} {second : Except Error Abstract}
    (alike : Alike relation first second) {see : State → Seen} {look : Abstract → Seen}
    (same : ∀ state abstract, relation state abstract → see state = look abstract) :
    first.map see = second.map look := by
  cases alike with
  | failed fault => rfl
  | ended related => exact congrArg Except.ok (same _ _ related)

theorem run_alike {Abstract : Type} (relation : State → Abstract → Prop)
    (next : Abstract → Op → Except Error Abstract)
    (steps : ∀ state abstract op, relation state abstract →
      Alike relation (step state op) (next abstract op))
    (state : State) (abstract : Abstract) (related : relation state abstract) (ops : List Op) :
    Alike relation (run step state ops) (run next abstract ops) := by
  induction ops generalizing state abstract with
  | nil => exact .ended related
  | cons op rest ih =>
      have first := steps state abstract op related
      unfold run
      rw [List.foldlM_cons, List.foldlM_cons]
      cases stepped : step state op <;> cases moved : next abstract op <;>
        rw [stepped, moved] at first <;> cases first
      · exact .failed _
      · rename_i later
        exact ih _ _ later

section Session

variable (step) (starts : State × Op → Bool)

/-- The steps of a run since the latest one that starts a session. -/
def session (state : State) (ops : List Op) : List (State × Op) :=
  (steps step state ops).rtakeWhile fun pair => !starts pair

def sessionStart (state : State) (ops : List Op) (final : State) : State :=
  ((session step starts state ops).map Prod.fst).headD final

variable {step starts}

theorem steps_append (state middle : State) (front back : List Op)
    (ran : run step state front = .ok middle) :
    steps step state (front ++ back) = steps step state front ++ steps step middle back := by
  induction front generalizing state with
  | nil =>
      rw [← Except.ok.inj ran]
      rfl
  | cons op rest ih =>
      obtain ⟨next, first, remaining⟩ := (run_cons_iff state middle op rest).mp ran
      rw [List.cons_append, steps_cons state next op _ first, steps_cons state next op _ first,
        ih next remaining, List.cons_append]

theorem run_concat_iff (state final : State) (front : List Op) (op : Op) :
    run step state (front ++ [op]) = .ok final ↔
      ∃ middle, run step state front = .ok middle ∧ step middle op = .ok final := by
  rw [run_append_iff]
  apply exists_congr
  intro middle
  apply and_congr_right
  intro _
  rw [run_cons_iff]
  constructor
  · intro ⟨next, last, nothing⟩
    rw [last, Except.ok.inj nothing]
  · exact fun last => ⟨final, last, rfl⟩

theorem session_concat (starts : State × Op → Bool) (state middle final : State)
    (front : List Op) (op : Op) (ran : run step state front = .ok middle)
    (last : step middle op = .ok final) :
    session step starts state (front ++ [op]) =
        (if starts (middle, op) then [] else session step starts state front ++ [(middle, op)]) ∧
      sessionStart step starts state (front ++ [op]) final =
        (if starts (middle, op) then final else sessionStart step starts state front middle) := by
  have all : steps step state (front ++ [op]) = steps step state front ++ [(middle, op)] := by
    rw [steps_append state middle front [op] ran, steps_cons middle final op [] last]
    rfl
  have parts : session step starts state (front ++ [op]) =
      if starts (middle, op) then [] else session step starts state front ++ [(middle, op)] := by
    unfold session
    rw [all, List.rtakeWhile_concat]
    cases starts (middle, op) <;> rfl
  refine ⟨parts, ?_⟩
  unfold sessionStart
  rw [parts]
  split_ifs
  · rfl
  · rw [List.map_append, List.map_singleton]
    cases (session step starts state front).map Prod.fst <;> rfl

section Rules

variable {allowed : Op → Prop} {invariant : State → Prop}
  (keeps : ∀ state op next, allowed op → invariant state → step state op = .ok next →
    invariant next)
  {state final : State} (holds : invariant state) {ops : List Op}
  (allAllowed : ∀ op ∈ ops, allowed op) (ran : run step state ops = .ok final)

include keeps holds allAllowed ran

theorem run_invariant : invariant final := by
  induction ops generalizing state with
  | nil =>
      rw [← Except.ok.inj ran]
      exact holds
  | cons op rest ih =>
      obtain ⟨next, first, remaining⟩ := (run_cons_iff state final op rest).mp ran
      exact ih (keeps state op next (allAllowed op List.mem_cons_self) holds first)
        (fun other member => allAllowed other (List.mem_cons_of_mem op member)) remaining

theorem steps_invariant (pair : State × Op) (member : pair ∈ steps step state ops) :
    invariant pair.1 ∧ allowed pair.2 := by
  induction ops generalizing state with
  | nil => exact absurd member List.not_mem_nil
  | cons op rest ih =>
      obtain ⟨next, first, remaining⟩ := (run_cons_iff state final op rest).mp ran
      have own := allAllowed op List.mem_cons_self
      rw [steps_cons state next op rest first] at member
      rcases List.mem_cons.mp member with here | later
      · rw [here]
        exact ⟨holds, own⟩
      · exact ih (keeps state op next own holds first)
          (fun other inRest => allAllowed other (List.mem_cons_of_mem op inRest)) remaining later

theorem run_mem (op : Op) (member : op ∈ ops) :
    ∃ before after, invariant before ∧ step before op = .ok after := by
  obtain ⟨front, back, parts⟩ := List.append_of_mem member
  rw [parts] at ran allAllowed
  obtain ⟨before, first, rest⟩ := (run_append_iff state final front (op :: back)).mp ran
  obtain ⟨after, here, _⟩ := (run_cons_iff before final op back).mp rest
  have sound := run_invariant keeps holds
    (fun other inFront => allAllowed other (List.mem_append_left _ inFront)) first
  exact ⟨before, after, sound, here⟩

/-- What holds in the end and is not made true by a step within a session held
all through it. -/
theorem session_back (property : State → Prop)
    (back : ∀ state op next, allowed op → invariant state → starts (state, op) = false →
      step state op = .ok next → property next → property state)
    (last : property final) :
    property (sessionStart step starts state ops final) ∧
      ∀ pair ∈ session step starts state ops, property pair.1 := by
  induction ops using List.reverseRecOn generalizing final with
  | nil =>
      rw [← Except.ok.inj ran] at last
      refine ⟨?_, fun pair member => absurd member List.not_mem_nil⟩
      rw [← Except.ok.inj ran]
      exact last
  | append_singleton front op ih =>
      have own := allAllowed op (List.mem_append_right front List.mem_cons_self)
      have before : ∀ op ∈ front, allowed op :=
        fun other member => allAllowed other (List.mem_append_left [op] member)
      obtain ⟨middle, front', next⟩ := (run_concat_iff state final front op).mp ran
      obtain ⟨parts, start⟩ := session_concat starts state middle final front op front' next
      rw [parts, start]
      cases first : starts (middle, op) with
      | true => exact ⟨last, fun pair member => absurd member List.not_mem_nil⟩
      | false =>
          have sound := run_invariant keeps holds before front'
          have earlier := back middle op final own sound first next last
          obtain ⟨startHolds, stepsHold⟩ := ih before front' earlier
          refine ⟨startHolds, ?_⟩
          intro pair member
          rcases List.mem_append.mp member with inFront | here
          · exact stepsHold pair inFront
          · rw [List.mem_singleton.mp here]
            exact earlier

theorem session_count {Total : Type} [AddMonoid Total] (count : State → Total)
    (value : State × Op → Total)
    (grows : ∀ state op next, allowed op → invariant state → starts (state, op) = false →
      step state op = .ok next → count next = count state + value (state, op)) :
    count final = count (sessionStart step starts state ops final) +
      ((session step starts state ops).map value).sum := by
  induction ops using List.reverseRecOn generalizing final with
  | nil => exact (add_zero (count final)).symm
  | append_singleton front op ih =>
      have own := allAllowed op (List.mem_append_right front List.mem_cons_self)
      have before : ∀ op ∈ front, allowed op :=
        fun other member => allAllowed other (List.mem_append_left [op] member)
      obtain ⟨middle, front', next⟩ := (run_concat_iff state final front op).mp ran
      obtain ⟨parts, start⟩ := session_concat starts state middle final front op front' next
      rw [parts, start]
      cases first : starts (middle, op) with
      | true => exact (add_zero (count final)).symm
      | false =>
          have sound := run_invariant keeps holds before front'
          have added := grows middle op final own sound first next
          rw [added, ih before front', if_neg Bool.false_ne_true, if_neg Bool.false_ne_true,
            List.map_append, List.sum_append, List.map_singleton, List.sum_singleton, add_assoc]

/-- A signed counter shows the sum of a session exactly when the session found
it at zero and the sum fits. What the steps add need only agree with what they
are said to add within the session. -/
theorem session_counter_iff (counter : State → Int64) (adds shown : State × Op → UInt64)
    (grows : ∀ state op next, allowed op → invariant state → starts (state, op) = false →
      step state op = .ok next →
      (counter next).toUInt64 = (counter state).toUInt64 + adds (state, op))
    (agree : ∀ pair ∈ session step starts state ops, adds pair = shown pair) :
    (counter final).toInt =
        ((session step starts state ops).map fun pair => (shown pair).toNat).sum ↔
      counter (sessionStart step starts state ops final) = 0 ∧
        ((session step starts state ops).map fun pair => (shown pair).toNat).sum < 2 ^ 63 := by
  have grown := session_count keeps holds allAllowed ran
    (fun state => (counter state).toUInt64) adds grows
  apply Word.counter_exact_iff _ _ _ _ grown
  rw [List.map_congr_left agree, Word.toNat_sum, List.map_map]
  rfl

end Rules

end Session

end WPerf.Library.Runs
