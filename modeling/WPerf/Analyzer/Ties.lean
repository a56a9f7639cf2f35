import WPerf.Library.Reordering
import WPerf.Analyzer.Charges

/-!
# Unrelated ties

`LoadSwitch` sorts by time only, with a sort that is not stable, so events of
one time may come in any order. Everything the analyzer keeps of a trace is
kept per pid, and one pid's tables and segments are a run over the events that
mention it. The only other things it reads are the first and the last time. So
two sorted orderings that agree on events with a pid in common give one result.
-/

namespace WPerf.Analyzer

open WPerf.Library

set_option autoImplicit false

def Switch.Mentions (pid : Int64) (v : Switch) : Prop := v.prevPid = pid ∨ v.nextPid = pid

def SharesPid (v w : Switch) : Prop := v.Mentions w.prevPid ∨ v.Mentions w.nextPid

instance (pid : Int64) (v : Switch) : Decidable (v.Mentions pid) :=
  inferInstanceAs (Decidable (_ ∨ _))

instance (v w : Switch) : Decidable (SharesPid v w) := inferInstanceAs (Decidable (_ ∨ _))

theorem shares_of_mentions (pid : Int64) (v w : Switch) (first : v.Mentions pid)
    (second : w.Mentions pid) : SharesPid v w := by
  rcases second with prev | next
  · apply Or.inl
    rw [prev]
    exact first
  · apply Or.inr
    rw [next]
    exact first

section

variable {left right : List Switch} (reordered : Reordering.Reordered SharesPid left right)
include reordered

/-- A run that only looks at the events of one pid does not see the
reordering. -/
theorem pid_run_eq {State : Type} (pid : Int64) (step : State → Switch → State)
    (ignores : ∀ state v, ¬v.Mentions pid → step state v = state) (state : State) :
    left.foldl step state = right.foldl step state := by
  apply Reordering.foldl_eq reordered fun v => decide (v.Mentions pid)
  · intro v w first second
    exact shares_of_mentions pid v w (of_decide_eq_true first) (of_decide_eq_true second)
  · intro state v other
    exact ignores state v (of_decide_eq_false other)

theorem comm_map_init_eq (c : GoMap Int64 String) : commMapInit left c = commMapInit right c := by
  apply Finmap.ext_lookup
  intro pid
  have observed : ∀ swl : List Switch,
      swl.foldl (fun name v => name.or (firstComm pid [v])) (c.lookup pid) =
        (commMapInit swl c).lookup pid :=
    fun swl => List.foldl_hom (fun c => c.lookup pid) fun c v =>
      (comm_map_note_lookup pid c v).symm
  rw [← observed left, ← observed right]
  apply pid_run_eq reordered pid
  intro name v other
  have unnamed : firstComm pid [v] = none := by
    unfold firstComm
    rw [if_neg fun prev => other (Or.inl prev), if_neg fun next => other (Or.inr next)]
    rfl
  rw [unnamed, Option.or_none]

end

theorem note_lifetime_create (pid : Int64) (g : Globals) (v : Switch) :
    (noteLifetime g v).createTimeList.lookup pid =
      if v.type = 2 ∧ v.nextPid = pid then some v.time else g.createTimeList.lookup pid := by
  unfold noteLifetime
  by_cases creates : v.type = 2
  · rw [if_pos creates]
    by_cases same : v.nextPid = pid
    · rw [if_pos ⟨creates, same⟩, same]
      exact Finmap.lookup_insert g.createTimeList
    · rw [if_neg fun both => same both.2]
      exact Finmap.lookup_insert_of_ne g.createTimeList fun equal => same equal.symm
  · have notCreate : ¬(v.type = 2 ∧ v.nextPid = pid) := fun both => creates both.1
    rw [if_neg creates, if_neg notCreate]
    split_ifs <;> rfl

section

variable {left right : List Switch} (reordered : Reordering.Reordered SharesPid left right)
include reordered

theorem note_lifetimes_eq (g : Globals) :
    left.foldl noteLifetime g = right.foldl noteLifetime g := by
  have created : ∀ (pid : Int64) (swl : List Switch),
      swl.foldl (fun t v => if v.type = 2 ∧ v.nextPid = pid then some v.time else t)
          (g.createTimeList.lookup pid) = (swl.foldl noteLifetime g).createTimeList.lookup pid :=
    fun pid swl => List.foldl_hom (fun g : Globals => g.createTimeList.lookup pid) fun g v =>
      (note_lifetime_create pid g v).symm
  have exited : ∀ (pid : Int64) (swl : List Switch),
      swl.foldl (fun t v => if v.type = 3 ∧ v.prevPid = pid then some v.time else t)
          (g.exitTimeList.lookup pid) = (swl.foldl noteLifetime g).exitTimeList.lookup pid :=
    fun pid swl => List.foldl_hom (fun g : Globals => g.exitTimeList.lookup pid) fun g v =>
      (note_lifetime_exit pid g v).symm
  have sameCreated : (left.foldl noteLifetime g).createTimeList =
      (right.foldl noteLifetime g).createTimeList := by
    apply Finmap.ext_lookup
    intro pid
    rw [← created pid left, ← created pid right]
    apply pid_run_eq reordered pid
    intro t v other
    exact if_neg fun both => other (Or.inr both.2)
  have sameExited : (left.foldl noteLifetime g).exitTimeList =
      (right.foldl noteLifetime g).exitTimeList := by
    apply Finmap.ext_lookup
    intro pid
    rw [← exited pid left, ← exited pid right]
    apply pid_run_eq reordered pid
    intro t v other
    exact if_neg fun both => other (Or.inl both.2)
  rw [note_lifetimes_frame left, note_lifetimes_frame right, sameCreated, sameExited]

variable (leftSorted : TimeSorted left) (rightSorted : TimeSorted right)
include leftSorted rightSorted

theorem ends_eq :
    left.head?.map Switch.time = right.head?.map Switch.time ∧
      left.getLast?.map Switch.time = right.getLast?.map Switch.time := by
  have times := Reordering.sorted_keys_eq Switch.time (Reordering.perm reordered) leftSorted
    rightSorted
  rw [← List.head?_map, ← List.head?_map, ← List.getLast?_map, ← List.getLast?_map, times]
  exact ⟨rfl, rfl⟩

theorem prev_state_map_init_eq (pl : List Int64) (g : Globals) :
    prevStateMapInit pl left g = prevStateMapInit pl right g := by
  obtain ⟨starts, ends⟩ := ends_eq reordered leftSorted rightSorted
  unfold prevStateMapInit
  cases leftFirst : left.head? with
  | none =>
      rw [leftFirst] at starts
      rw [Option.map_eq_none_iff.mp starts.symm]
  | some first =>
      rw [leftFirst] at starts
      obtain ⟨first', rightFirst, sameFirst⟩ := Option.map_eq_some_iff.mp starts.symm
      rw [rightFirst]
      cases leftLast : left.getLast? with
      | none =>
          rw [leftLast] at ends
          rw [Option.map_eq_none_iff.mp ends.symm]
      | some last =>
          rw [leftLast] at ends
          obtain ⟨last', rightLast, sameLast⟩ := Option.map_eq_some_iff.mp ends.symm
          rw [rightLast]
          dsimp only
          rw [sameFirst, sameLast, note_lifetimes_eq reordered g]

theorem set_up_eq (pl : List Int64) (sl : List Soft) : setUp pl left sl = setUp pl right sl := by
  unfold setUp
  dsimp only
  rw [comm_map_init_eq reordered, prev_state_map_init_eq reordered leftSorted rightSorted]

theorem break_into_segments_eq (g : Globals) (pid : Int64) :
    breakIntoSegments g pid left = breakIntoSegments g pid right := by
  have ends := (ends_eq reordered leftSorted rightSorted).2
  have loop : ∀ start : Loop,
      left.foldl (breakStep g.sm pid) start = right.foldl (breakStep g.sm pid) start := by
    intro start
    apply pid_run_eq reordered pid
    intro loop v other
    apply break_step_other g.sm pid loop v
    intro handled
    rcases handled with ⟨_, involved⟩ | ⟨⟨_, target⟩, _⟩
    · exact other involved
    · exact other (Or.inr target)
  unfold breakIntoSegments
  cases leftLast : left.getLast? with
  | none =>
      rw [leftLast] at ends
      rw [Option.map_eq_none_iff.mp ends.symm]
  | some last =>
      rw [leftLast] at ends
      obtain ⟨other, rightLast, sameTime⟩ := Option.map_eq_some_iff.mp ends.symm
      rw [rightLast]
      cases getSegments g pid with
      | none => rfl
      | some segs =>
          dsimp only
          rw [loop, sameTime]

/-- The whole run on two such orderings leaves the same segments and the same
graph, or fails on both in the same way. -/
theorem unrelated_ties_ignored (fuel : Nat) (pl : List Int64) (sl : List Soft) :
    analyze fuel pl left sl = analyze fuel pl right sl := by
  have cuts : (fun g pid => breakIntoSegments g pid left) =
      fun g pid => breakIntoSegments g pid right := by
    funext g pid
    exact break_into_segments_eq reordered leftSorted rightSorted g pid
  unfold analyze breakAll
  rw [set_up_eq reordered leftSorted rightSorted, cuts]

end

def tiedTrace : List Switch :=
  [switchTo (fun _ => "worker") 0 10 1 1 2, switchTo (fun _ => "worker") 1 10 3 0 4,
    lifeEvent (fun _ => "worker") 1 1 20 3 1]

def tiedTraceOtherwise : List Switch :=
  [switchTo (fun _ => "worker") 1 10 3 0 4, switchTo (fun _ => "worker") 0 10 1 1 2,
    lifeEvent (fun _ => "worker") 1 1 20 3 1]

theorem tied_trace_either_way :
    analyze 5 [1, 3] tiedTrace [] = analyze 5 [1, 3] tiedTraceOtherwise [] := by
  have reordered : Reordering.Reordered SharesPid tiedTrace tiedTraceOtherwise :=
    ⟨(Equiv.swap 0 1 : Fin 3 ≃ Fin 3), by decide, by decide⟩
  exact unrelated_ties_ignored reordered (by decide) (by decide) 5 [1, 3] []

end WPerf.Analyzer
