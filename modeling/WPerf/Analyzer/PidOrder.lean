import WPerf.Analyzer.Redistribution
import WPerf.Analyzer.Ties

/-!
# The order of the pid list

`BreakIntoSegments` reads and writes the segments of its own thread, and
`Cascade` writes the graph alone. So the first loop leaves each listed thread
the segments it has whatever was cut before, and the second is one tally over
all of them. No permutation of the list changes either.
-/

namespace WPerf.Analyzer

open WPerf.Library

set_option autoImplicit false

theorem break_into_segments_frame (g g' : Globals) (pid : Int64) (swl : List Switch)
    (run : breakIntoSegments g pid swl = .ok g') :
    ∃ segs, g' = { g with segMap := g.segMap.insert pid segs } := by
  unfold breakIntoSegments at run
  cases last : swl.getLast? with
  | none =>
      rw [last] at run
      cases run
  | some final =>
      rw [last] at run
      cases found : getSegments g pid with
      | none =>
          rw [found] at run
          cases run
      | some segs =>
          rw [found] at run
          obtain ⟨finished, _, stored⟩ := (Fallible.bind_eq_ok_iff _ _ g').mp run
          exact ⟨finished, (Except.ok.inj stored).symm⟩

theorem break_all_frame (swl : List Switch) (pids : List Int64) (g g' : Globals)
    (run : breakAll swl pids g = .ok g') : ∃ segMap, g' = { g with segMap := segMap } := by
  apply Fallible.foldlM_invariant (fun g pid => breakIntoSegments g pid swl)
    (fun other => ∃ segMap, other = { g with segMap := segMap }) pids _ ⟨g.segMap, rfl⟩ run
  intro pid _ before after ⟨segMap, same⟩ call
  obtain ⟨segs, stored⟩ := break_into_segments_frame before after pid swl call
  refine ⟨before.segMap.insert pid segs, ?_⟩
  rw [stored, same]

theorem set_up_perm {pl other : List Int64} (reordered : pl.Perm other) (swl : List Switch)
    (sl : List Soft) : setUp pl swl sl = setUp other swl sl := by
  have segs : segmentMapInit pl ∅ = segmentMapInit other ∅ := by
    apply Finmap.ext_lookup
    intro pid
    rw [segment_map_init_lookup, segment_map_init_lookup]
    exact if_congr reordered.mem_iff rfl rfl
  have starts : ∀ first last g, pl.foldl (initPrevState first last) g =
      other.foldl (initPrevState first last) g := by
    intro first last g
    have same : (pl.foldl (initPrevState first last) g).prevStateMap =
        (other.foldl (initPrevState first last) g).prevStateMap := by
      apply Finmap.ext_lookup
      intro pid
      rw [init_prev_states_lookup, init_prev_states_lookup]
      exact if_congr reordered.mem_iff rfl rfl
    rw [init_prev_states_frame first last pl, init_prev_states_frame first last other, same]
  have init : ∀ g, prevStateMapInit pl swl g = prevStateMapInit other swl g := by
    intro g
    unfold prevStateMapInit
    simp only [starts]
  unfold setUp
  dsimp only [Globals.initial]
  rw [segs, init]

/-- Whatever the order in which the threads are cut, their segments are the
same. -/
theorem cut_threads_perm {pl other : List Int64} (reordered : pl.Perm other)
    (swl : List Switch) (sl : List Soft) (g : Globals) (run : cutThreads pl pl swl sl = .ok g) :
    cutThreads other other swl sl = .ok g := by
  obtain ⟨nonempty, segmented, _⟩ := cut_threads_spec (fun _ listed => listed) run
  have cuts : ∀ pid ∈ other, ∃ segs, threadSegments sl swl pid = .ok segs := by
    intro pid listed
    obtain ⟨segs, cut, _⟩ := segmented.cut pid (List.mem_reverse.mpr (reordered.mem_iff.mpr listed))
    exact ⟨segs, cut⟩
  obtain ⟨g', run'⟩ := cut_threads_succeeds nonempty (fun _ listed => listed) cuts
  obtain ⟨_, segmented', _⟩ := cut_threads_spec (fun _ listed => listed) run'
  have tables : g.segMap = g'.segMap := by
    apply Finmap.ext_lookup
    intro pid
    change getSegments g pid = getSegments g' pid
    by_cases listed : pid ∈ pl
    · obtain ⟨segs, cut, found⟩ := segmented.cut pid (List.mem_reverse.mpr listed)
      obtain ⟨segs', cut', found'⟩ := segmented'.cut pid
        (List.mem_reverse.mpr (reordered.mem_iff.mp listed))
      rw [found, found', Except.ok.inj (cut.symm.trans cut')]
    · rw [segmented.unlisted pid listed,
        segmented'.unlisted pid fun member => listed (reordered.mem_iff.mpr member)]
  obtain ⟨start, ready, broke⟩ := (Fallible.bind_eq_ok_iff _ _ g).mp run
  obtain ⟨start', ready', broke'⟩ := (Fallible.bind_eq_ok_iff _ _ g').mp run'
  rw [← set_up_perm reordered] at ready'
  have sameStart : start = start' := Except.ok.inj (ready.symm.trans ready')
  obtain ⟨segMap, frame⟩ := break_all_frame swl pl start g broke
  obtain ⟨segMap', frame'⟩ := break_all_frame swl other start' g' broke'
  have same : g = g' := by
    rw [frame, frame'] at tables
    have sameMap : segMap = segMap' := tables
    rw [frame, frame', sameStart, sameMap]
  rw [same]
  exact run'

theorem cascade_all_perm {pl other : List Int64} (reordered : pl.Perm other) (fuel : Nat)
    (g g' : Globals) (run : cascadeAll fuel pl g = .ok g') : cascadeAll fuel other g = .ok g' := by
  obtain ⟨passes, result⟩ := (cascade_all_run_iff fuel pl g g').mp run
  apply (cascade_all_run_iff fuel other g g').mpr
  constructor
  · intro pid listed
    exact passes pid (reordered.mem_iff.mpr listed)
  · have stored : (blockedOf (storedOf g pl)).Perm (blockedOf (storedOf g other)) :=
      (reordered.flatMap_right _).filter _
    rw [← result]
    unfold chargeAll
    rw [Tally.add_all_perm _ _ stored]

theorem analyze_perm {pl other : List Int64} (reordered : pl.Perm other) (fuel : Nat)
    (swl : List Switch) (sl : List Soft) (g : Globals) (run : analyze fuel pl swl sl = .ok g) :
    analyze fuel other swl sl = .ok g := by
  obtain ⟨ready, cut, cascaded⟩ := (analyze_eq_ok_iff fuel pl swl sl g).mp run
  exact (analyze_eq_ok_iff fuel other swl sl g).mpr
    ⟨ready, cut_threads_perm reordered swl sl ready cut, cascade_all_perm reordered fuel ready g cascaded⟩

/-- A permutation of the list leaves the same tables before the loops and the
same result after them, or fails as well. Each call keeps to its own part:
`BreakIntoSegments` to its thread's segments, `Cascade` to the graph. -/
theorem pid_order_ignored (fuel : Nat) (pl other : List Int64) (swl : List Switch)
    (sl : List Soft) (reordered : pl.Perm other) :
    setUp pl swl sl = setUp other swl sl ∧
      (∀ g, analyze fuel pl swl sl = .ok g ↔ analyze fuel other swl sl = .ok g) ∧
      (∀ g g' pid, breakIntoSegments g pid swl = .ok g' →
        ∀ q, q ≠ pid → getSegments g' q = getSegments g q) ∧
      ∀ g g' w, cascade fuel g w = .ok g' → ∀ q, getSegments g' q = getSegments g q := by
  refine ⟨set_up_perm reordered swl sl, ?_, ?_, ?_⟩
  · intro g
    exact ⟨analyze_perm reordered fuel swl sl g, analyze_perm reordered.symm fuel swl sl g⟩
  · intro g g' pid run q different
    obtain ⟨segs, stored⟩ := break_into_segments_frame g g' pid swl run
    rw [stored]
    exact Finmap.lookup_insert_of_ne g.segMap different
  · intro g g' w run q
    rw [cascade_frame fuel g w g' run]
    rfl

theorem relay_pids_either_way :
    setUp [1, 2] relayTrace [] = setUp [2, 1] relayTrace [] ∧
      (∀ g, analyze 5 [1, 2] relayTrace [] = .ok g ↔ analyze 5 [2, 1] relayTrace [] = .ok g) ∧
      (∀ g g' pid, breakIntoSegments g pid relayTrace = .ok g' →
        ∀ q, q ≠ pid → getSegments g' q = getSegments g q) ∧
      ∀ g g' w, cascade 5 g w = .ok g' → ∀ q, getSegments g' q = getSegments g q :=
  pid_order_ignored 5 [1, 2] [2, 1] relayTrace [] (by decide)

end WPerf.Analyzer
