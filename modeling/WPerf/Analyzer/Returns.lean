import WPerf.Analyzer.Walk

/-!
# When Cascade returns

What one call of `Cascade` does, said once: it charges a BLOCKED segment to its
edge and returns if the walk over the waker's segments does, and the walk
depends on the stored segments alone. After `main` has cut the listed threads
every call ends; it returns exactly when its walk finds a reason to stop. A
waker that never exits always gives one, its segment at the trace end.
-/

namespace WPerf.Analyzer

open WPerf.Library

set_option autoImplicit false

def charge (g : Globals) (w : Segment) : Globals := addWeight g w.pid w.waitFor w.etime w.stime

def Globals.withGraph (g : Globals) (graph : GoMap String UInt64) : Globals :=
  { g with waitForGraph := graph }

theorem charge_frame (g : Globals) (w : Segment) :
    charge g w = g.withGraph (charge g w).waitForGraph := by
  unfold charge addWeight
  dsimp only
  split_ifs <;> rfl

theorem find_all_graph (fuel : Nat) (g : Globals) (graph : GoMap String UInt64) (w : Segment) :
    findAllWaitingSegments fuel (g.withGraph graph) w.waitFor w.etime w.stime =
      findAllWaitingSegments fuel g w.waitFor w.etime w.stime := rfl

theorem find_all_nil (fuel : Nat) (g : Globals) (w : Segment) (found : List Segment)
    (run : findAllWaitingSegments fuel g w.waitFor w.etime w.stime = .ok found) : found = [] := by
  unfold findAllWaitingSegments at run
  cases table : getSegments g w.waitFor with
  | none =>
      rw [table] at run
      exact (Except.ok.inj run).symm
  | some segs =>
      rw [table] at run
      dsimp only at run
      cases start : (segs.floor w.stime).2 with
      | none =>
          rw [start] at run
          exact (Except.ok.inj run).symm
      | some seg =>
          rw [start] at run
          obtain ⟨_, _, last⟩ := (Fallible.bind_eq_ok_iff _ _ found).mp run
          exact (Except.ok.inj last).symm

/-- One call of `Cascade`. Since the list that comes back is empty, there is
no recursive call. -/
theorem cascade_eq_ok_iff (fuel : Nat) (g : Globals) (w : Segment) (g' : Globals) :
    cascade (fuel + 1) g w = .ok g' ↔
      (w.state ≠ .blocked ∧ g = g') ∨
        (w.state = .blocked ∧
          findAllWaitingSegments fuel g w.waitFor w.etime w.stime = .ok [] ∧ charge g w = g') := by
  unfold cascade
  by_cases blocked : w.state = .blocked
  · have awake : ¬w.state ≠ .blocked := fun other => other blocked
    have walk : findAllWaitingSegments fuel (charge g w) w.waitFor w.etime w.stime =
        findAllWaitingSegments fuel g w.waitFor w.etime w.stime := by
      rw [charge_frame]
      rfl
    rw [if_neg awake]
    change (findAllWaitingSegments fuel (charge g w) w.waitFor w.etime w.stime >>= _) = _ ↔ _
    rw [walk, Fallible.bind_eq_ok_iff]
    constructor
    · intro ⟨found, run, rest⟩
      have empty := find_all_nil fuel g w found run
      rw [empty] at run rest
      exact Or.inr ⟨blocked, run, Except.ok.inj rest⟩
    · rintro (⟨other, _⟩ | ⟨_, run, same⟩)
      · exact absurd blocked other
      · refine ⟨[], run, ?_⟩
        rw [← same]
        rfl
  · rw [if_pos blocked]
    constructor
    · intro run
      exact Or.inl ⟨blocked, Except.ok.inj run⟩
    · rintro (⟨_, same⟩ | ⟨other, _⟩)
      · rw [← same]
        rfl
      · exact absurd other blocked

theorem cascade_frame (fuel : Nat) (g : Globals) (w : Segment) (g' : Globals)
    (run : cascade fuel g w = .ok g') : g' = g.withGraph g'.waitForGraph := by
  cases fuel with
  | zero => cases run
  | succ fuel =>
      rcases (cascade_eq_ok_iff fuel g w g').mp run with ⟨_, same⟩ | ⟨_, _, same⟩
      · rw [← same]
        rfl
      · rw [← same]
        exact charge_frame g w

theorem find_all_settles (g : Globals) (roomy : Roomy g) (w : Segment) :
    ∃ bound, ∀ fuel, bound ≤ fuel →
      (WalkEnds g w ∧ findAllWaitingSegments fuel g w.waitFor w.etime w.stime = .ok []) ∨
        (¬WalkEnds g w ∧
          findAllWaitingSegments fuel g w.waitFor w.etime w.stime = .error .failedAssertion) := by
  refine ⟨((getSegments g w.waitFor).map fun segs => segs.list.length + 1).getD 0, ?_⟩
  intro fuel enough
  have outcome := find_all_outcome g roomy fuel w
  cases run : findAllWaitingSegments fuel g w.waitFor w.etime w.stime with
  | ok found =>
      rw [run] at outcome
      rw [outcome.1]
      exact Or.inl ⟨outcome.2, rfl⟩
  | error fault =>
      rw [run] at outcome
      rcases outcome with ⟨failed, never⟩ | ⟨_, segs, table, short⟩
      · rw [failed]
        exact Or.inr ⟨never, rfl⟩
      · rw [table] at enough
        exact absurd (Nat.le_trans enough short) (Nat.not_succ_le_self _)

theorem cascade_returns_iff (g : Globals) (roomy : Roomy g) (w : Segment) :
    (∃ fuel g', cascade fuel g w = .ok g') ↔ (w.state = .blocked → WalkEnds g w) := by
  obtain ⟨bound, settles⟩ := find_all_settles g roomy w
  constructor
  · intro ⟨fuel, g', run⟩ blocked
    cases fuel with
    | zero => cases run
    | succ fuel =>
        rcases (cascade_eq_ok_iff fuel g w g').mp run with ⟨awake, _⟩ | ⟨_, walk, _⟩
        · exact absurd blocked awake
        · have outcome := find_all_outcome g roomy fuel w
          rw [walk] at outcome
          exact outcome.2
  · intro ends
    by_cases blocked : w.state = .blocked
    · rcases settles bound (le_refl bound) with ⟨_, run⟩ | ⟨never, _⟩
      · exact ⟨bound + 1, charge g w,
          (cascade_eq_ok_iff bound g w (charge g w)).mpr (Or.inr ⟨blocked, run, rfl⟩)⟩
      · exact absurd (ends blocked) never
    · exact ⟨bound + 1, g, (cascade_eq_ok_iff bound g w g).mpr (Or.inl ⟨blocked, rfl⟩)⟩

theorem Segmented.roomy {pl : List Int64} {swl : List Switch} {sl : List Soft}
    {pids : List Int64} {g : Globals} (segmented : Segmented pl swl sl pids g)
    (sorted : TimeSorted swl) : Roomy g := by
  intro pid segs found seg member
  rcases segmented.held found with fresh | cut
  · rw [fresh] at member
    exact absurd member List.not_mem_nil
  · exact stored_room sl swl pid segs sorted cut seg member

/-- After `main` has cut the listed threads, and whatever the graph holds by
then: `Cascade` returns on every stored segment exactly when the walk of every
stored wait finds a reason to stop. -/
theorem every_cascade_returns_iff (pl : List Int64) (swl : List Switch) (sl : List Soft)
    (g : Globals) (sorted : TimeSorted swl) (run : cutThreads pl pl swl sl = .ok g) :
    (∀ pid ∈ pl, ∀ segs, getSegments g pid = some segs → ∀ w ∈ segs.list,
        ∀ graph, ∃ fuel g', cascade fuel (g.withGraph graph) w = .ok g') ↔
      ∀ pid ∈ pl, ∀ segs, getSegments g pid = some segs → ∀ w ∈ blockedList segs,
        WalkEnds g w := by
  obtain ⟨_, segmented, _⟩ := cut_threads_spec (fun _ listed => listed) run
  have roomy : Roomy g := segmented.roomy sorted
  have returns : ∀ graph w, (∃ fuel g', cascade fuel (g.withGraph graph) w = .ok g') ↔
      (w.state = .blocked → WalkEnds g w) :=
    fun graph w => cascade_returns_iff (g.withGraph graph) roomy w
  constructor
  · intro all pid listed segs found w member
    obtain ⟨stored, blocked⟩ := (mem_blocked_list segs w).mp member
    exact (returns g.waitForGraph w).mp (all pid listed segs found w stored g.waitForGraph) blocked
  · intro ends pid listed segs found w member graph
    apply (returns graph w).mpr
    intro blocked
    exact ends pid listed segs found w ((mem_blocked_list segs w).mpr ⟨member, blocked⟩)

theorem exiting_thread_cascades :
    ∃ g, cutThreads [1] [1] exitingTrace [] = .ok g ∧
      ((∀ pid ∈ [1], ∀ segs, getSegments g pid = some segs → ∀ w ∈ segs.list,
          ∀ graph, ∃ fuel g', cascade fuel (g.withGraph graph) w = .ok g') ↔
        ∀ pid ∈ [1], ∀ segs, getSegments g pid = some segs → ∀ w ∈ blockedList segs,
          WalkEnds g w) := by
  obtain ⟨g, run⟩ : ∃ g, cutThreads [1] [1] exitingTrace [] = .ok g := ⟨_, rfl⟩
  exact ⟨g, run, every_cascade_returns_iff [1] exitingTrace [] g (by decide) run⟩

def lateWakerTrace : List Switch :=
  [switchTo (fun _ => "worker") 1 10 0 0 2,
    lifeEvent (fun _ => "worker") 3 1 20 2 0,
    switchTo (fun _ => "worker") 0 25 1 1 0,
    lifeEvent (fun _ => "worker") 1 1 30 2 1,
    switchTo (fun _ => "worker") 1 40 2 64 0]

theorem late_waker_fails :
    TimeSorted lateWakerTrace ∧ [1, 2].Nodup ∧
      ∃ g segs w, cutThreads [1, 2] [1, 2] lateWakerTrace [] = .ok g ∧
        getSegments g 1 = some segs ∧ w ∈ segs.list ∧ ∀ fuel g', cascade fuel g w ≠ .ok g' := by
  have sorted : TimeSorted lateWakerTrace := by decide
  refine ⟨sorted, by decide, ?_⟩
  obtain ⟨g, run⟩ : ∃ g, cutThreads [1, 2] [1, 2] lateWakerTrace [] = .ok g := ⟨_, rfl⟩
  obtain ⟨_, segmented, _⟩ := cut_threads_spec (fun _ listed => listed) run
  obtain ⟨waiter, waiterCut, waiterFound⟩ := segmented.cut 1 (by decide)
  obtain ⟨waker, wakerCut, wakerFound⟩ := segmented.cut 2 (by decide)
  have waiterIs : Segments.new.storeAll [⟨1, .blocked, 25, 30, 2⟩, ⟨1, .blocked, 40, 40, -13⟩] =
      waiter := Except.ok.inj waiterCut
  have wakerIs : Segments.new.storeAll [⟨2, .running, 10, 40, 0⟩, ⟨2, .runnable, 20, 20, 0⟩] =
      waker := Except.ok.inj wakerCut
  refine ⟨g, waiter, ⟨1, .blocked, 25, 30, 2⟩, run, waiterFound, ?_, ?_⟩
  · rw [← waiterIs]
    decide
  · intro fuel g' call
    have ends := (cascade_returns_iff g (segmented.roomy sorted) _).mp
      ⟨fuel, g', call⟩ rfl waker wakerFound
    rw [← wakerIs] at ends
    exact absurd ends (by decide)

end WPerf.Analyzer
