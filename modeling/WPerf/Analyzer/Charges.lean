import Mathlib.Data.UInt
import WPerf.Library.Tally
import WPerf.Analyzer.Returns

/-!
# What a run of Cascade leaves in the graph

A successful run of `Cascade` over any segments tallies the BLOCKED ones: each
adds its length under the key of its edge, and one with a nameless end adds
nothing. Whether the run succeeds is decided segment by segment and does not
depend on the graph, so the second loop of `main` is one tally over all stored
segments of the listed threads.
-/

namespace WPerf.Analyzer

open WPerf.Library

set_option autoImplicit false

def Segment.duration (w : Segment) : UInt64 := w.etime - w.stime

theorem durations_toNat (list : List Segment) (forward : ∀ seg ∈ list, seg.stime ≤ seg.etime) :
    (list.map Segment.duration).map UInt64.toNat =
      list.map fun seg => seg.etime.toNat - seg.stime.toNat := by
  rw [List.map_map]
  apply List.map_congr_left
  intro seg member
  exact Word.toNat_sub_of_order (forward seg member)

def edgeOf (g : Globals) (w : Segment) : Option String :=
  if getComm g w.pid = "" ∨ getComm g w.waitFor = "" then none
  else some (edgeKey (getComm g w.pid) (getComm g w.waitFor))

def blockedOf (list : List Segment) : List Segment := list.filter fun w => w.state = .blocked

def chargeAll (g : Globals) (list : List Segment) : Globals :=
  g.withGraph (Tally.addAll (edgeOf g) Segment.duration (blockedOf list) g.waitForGraph)

/-- The call returns. What the graph holds does not matter for that. -/
def Passes (fuel : Nat) (g : Globals) (w : Segment) : Prop := ∃ g', cascade fuel g w = .ok g'

/-- The source makes a missing key 0 first and then adds to it. -/
theorem charge_tally (g : Globals) (w : Segment) :
    charge g w =
      g.withGraph (Tally.addItem (edgeOf g) Segment.duration g.waitForGraph w) := by
  unfold charge addWeight edgeOf Tally.addItem
  dsimp only
  by_cases nameless : getComm g w.pid = "" ∨ getComm g w.waitFor = ""
  · rw [if_pos nameless, if_pos nameless]
    rfl
  · rw [if_neg nameless, if_neg nameless]
    dsimp only
    by_cases known : edgeKey (getComm g w.pid) (getComm g w.waitFor) ∈ g.waitForGraph
    · rw [if_pos known]
      rfl
    · have missing := Finmap.lookup_eq_none.mpr known
      rw [if_neg known, Finmap.insert_insert, Finmap.lookup_insert]
      unfold Tally.add Globals.withGraph
      rw [missing]
      rfl

theorem passes_graph (fuel : Nat) (g : Globals) (graph : GoMap String UInt64) (w : Segment) :
    Passes fuel (g.withGraph graph) w ↔ Passes fuel g w := by
  unfold Passes
  cases fuel with
  | zero =>
      constructor
      · intro ⟨_, run⟩
        cases run
      · intro ⟨_, run⟩
        cases run
  | succ fuel =>
      simp only [cascade_eq_ok_iff, find_all_graph]
      by_cases blocked : w.state = .blocked
      · simp [blocked]
      · simp [blocked]

/-- One call: it returns or not whatever the graph, and charges its segment. -/
theorem cascade_run_iff (fuel : Nat) (g : Globals) (w : Segment) (g' : Globals) :
    cascade fuel g w = .ok g' ↔ Passes fuel g w ∧ chargeAll g [w] = g' := by
  have result : ∀ after, cascade fuel g w = .ok after → chargeAll g [w] = after := by
    intro after run
    cases fuel with
    | zero => cases run
    | succ fuel =>
        unfold chargeAll blockedOf
        rcases (cascade_eq_ok_iff fuel g w after).mp run with
          ⟨awake, same⟩ | ⟨blocked, _, same⟩
        · rw [List.filter_cons_of_neg (by simpa using awake), ← same]
          rfl
        · rw [List.filter_cons_of_pos (by simpa using blocked), ← same, charge_tally]
          rfl
  constructor
  · intro run
    exact ⟨⟨g', run⟩, result g' run⟩
  · intro ⟨⟨after, run⟩, same⟩
    rw [run, ← result after run, same]

theorem charge_all_append (g : Globals) (front back : List Segment) :
    chargeAll (chargeAll g front) back = chargeAll g (front ++ back) := by
  unfold chargeAll blockedOf
  rw [List.filter_append, Tally.add_all_append]
  rfl

theorem cascades_run_iff (fuel : Nat) (list : List Segment) (g g' : Globals) :
    list.foldlM (cascade fuel) g = .ok g' ↔
      (∀ w ∈ list, Passes fuel g w) ∧ chargeAll g list = g' := by
  induction list generalizing g with
  | nil =>
      constructor
      · intro run
        exact ⟨fun w member => absurd member List.not_mem_nil, Except.ok.inj run⟩
      · intro ⟨_, same⟩
        rw [← same]
        rfl
  | cons w rest ih =>
      rw [Fallible.foldlM_cons_eq_ok_iff]
      have later : ∀ other, Passes fuel (chargeAll g [w]) other ↔ Passes fuel g other :=
        passes_graph fuel g _
      have whole : chargeAll (chargeAll g [w]) rest = chargeAll g (w :: rest) :=
        charge_all_append g [w] rest
      constructor
      · intro ⟨middle, first, remaining⟩
        obtain ⟨passes, same⟩ := (cascade_run_iff fuel g w middle).mp first
        rw [← same] at remaining
        obtain ⟨others, final⟩ := (ih (chargeAll g [w])).mp remaining
        refine ⟨?_, whole.symm.trans final⟩
        intro other member
        rcases List.mem_cons.mp member with rfl | inRest
        · exact passes
        · exact (later other).mp (others other inRest)
      · intro ⟨passes, final⟩
        refine ⟨chargeAll g [w], ?_, ?_⟩
        · exact (cascade_run_iff fuel g w _).mpr ⟨passes w List.mem_cons_self, rfl⟩
        · apply (ih (chargeAll g [w])).mpr
          refine ⟨?_, whole.trans final⟩
          intro other inRest
          exact (later other).mpr (passes other (List.mem_cons_of_mem w inRest))

def storedOf (g : Globals) (pids : List Int64) : List Segment :=
  pids.flatMap fun pid => ((getSegments g pid).map Segments.list).getD []

theorem cascade_all_run_iff (fuel : Nat) (pids : List Int64) (g g' : Globals) :
    cascadeAll fuel pids g = .ok g' ↔
      (∀ pid ∈ pids, ∃ segs, getSegments g pid = some segs ∧ ∀ w ∈ segs.list, Passes fuel g w) ∧
        chargeAll g (storedOf g pids) = g' := by
  unfold cascadeAll
  induction pids generalizing g with
  | nil =>
      constructor
      · intro run
        exact ⟨fun pid member => absurd member List.not_mem_nil, Except.ok.inj run⟩
      · intro ⟨_, same⟩
        rw [← same]
        rfl
  | cons pid rest ih =>
      rw [Fallible.foldlM_cons_eq_ok_iff]
      have thread : ∀ after, cascadeThread fuel g pid = .ok after ↔
          (∃ segs, getSegments g pid = some segs ∧ ∀ w ∈ segs.list, Passes fuel g w) ∧
            chargeAll g (storedOf g [pid]) = after := by
        intro after
        unfold cascadeThread storedOf
        cases found : getSegments g pid with
        | none => simp
        | some segs => simpa [found] using cascades_run_iff fuel segs.list g after
      have later : ∀ w, Passes fuel (chargeAll g (storedOf g [pid])) w ↔ Passes fuel g w :=
        passes_graph fuel g _
      have whole : chargeAll (chargeAll g (storedOf g [pid]))
          (storedOf (chargeAll g (storedOf g [pid])) rest) = chargeAll g (storedOf g (pid :: rest)) := by
        have split : storedOf g (pid :: rest) = storedOf g [pid] ++ storedOf g rest := by
          simp [storedOf]
        rw [charge_all_append, split]
        rfl
      constructor
      · intro ⟨middle, first, remaining⟩
        obtain ⟨own, same⟩ := (thread middle).mp first
        rw [← same] at remaining
        obtain ⟨others, final⟩ := (ih _).mp remaining
        refine ⟨?_, whole.symm.trans final⟩
        intro q member
        rcases List.mem_cons.mp member with rfl | inRest
        · exact own
        · obtain ⟨segs, found, passes⟩ := others q inRest
          exact ⟨segs, found, fun w stored => (later w).mp (passes w stored)⟩
      · intro ⟨passes, final⟩
        refine ⟨chargeAll g (storedOf g [pid]), ?_, ?_⟩
        · exact (thread _).mpr ⟨passes pid List.mem_cons_self, rfl⟩
        · apply (ih _).mpr
          refine ⟨?_, whole.trans final⟩
          intro q inRest
          obtain ⟨segs, found, each⟩ := passes q (List.mem_cons_of_mem pid inRest)
          exact ⟨segs, found, fun w stored => (later w).mpr (each w stored)⟩

theorem analyze_eq_ok_iff (fuel : Nat) (pl : List Int64) (swl : List Switch) (sl : List Soft)
    (g : Globals) :
    analyze fuel pl swl sl = .ok g ↔
      ∃ ready, cutThreads pl pl swl sl = .ok ready ∧ cascadeAll fuel pl ready = .ok g := by
  unfold analyze cutThreads
  simp only [Fallible.bind_eq_ok_iff]
  constructor
  · intro ⟨start, setUpRun, ready, breakRun, cascadeRun⟩
    exact ⟨ready, ⟨start, setUpRun, breakRun⟩, cascadeRun⟩
  · intro ⟨ready, ⟨start, setUpRun, breakRun⟩, cascadeRun⟩
    exact ⟨start, setUpRun, ready, breakRun, cascadeRun⟩

end WPerf.Analyzer
