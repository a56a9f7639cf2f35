import WPerf.Analyzer.Stretch

/-!
# BLOCKED segments

A BLOCKED piece is recorded by a wakeup of a blocked thread and by nothing
else. The thread is blocked at that point exactly when the last event that
concerns it is a switch-out in a non-zero task state, so the pieces are the
real waits of the trace. Their ends are event times in trace order, which
bounds them whatever the softirq table and the exit branch do to the map.
-/

namespace WPerf.Analyzer

open WPerf.Library

set_option autoImplicit false

/-- The thread waits after these events: the last one that concerns it is
`out`, which took it off the CPU in a state other than runnable. -/
def WaitsSince (pid : Int64) (out : Switch) (events : List Switch) : Prop :=
  ∃ before middle, events = before ++ out :: middle ∧ out.SwitchesOut pid ∧
    out.prevState ≠ 0 ∧ ∀ event ∈ middle, ¬event.Concerns pid

/-- A wait that a wakeup ends later than it began, as the analyzer stores it. -/
def RealWait (swl : List Switch) (pid : Int64) (seg : Segment) : Prop :=
  ∃ front out wake back, swl = front ++ wake :: back ∧ WaitsSince pid out front ∧
    wake.Wakes pid ∧ out.time < wake.time ∧
    seg = ⟨pid, .blocked, out.time, wake.time,
      if wake.inWhichCtx = process then wake.prevPid else -wake.inWhichCtx⟩

theorem state_left_blocked_iff (pid : Int64) (sw : Switch) (concerns : sw.Concerns pid) :
    stateLeftBy pid sw = .blocked ↔ sw.SwitchesOut pid ∧ sw.prevState ≠ 0 := by
  unfold stateLeftBy Switch.SwitchesOut isRunnable
  rcases concerns with ⟨switch, involved⟩ | ⟨wakeup, _⟩
  · rw [if_pos switch]
    by_cases out : sw.prevPid = pid
    · rw [if_pos out]
      by_cases runs : sw.prevState = 0
      · simp [runs]
      · simp [runs, switch, out]
    · simp [out]
  · have notSwitch : sw.type ≠ 0 := by
      rw [wakeup]
      decide
    simp [notSwitch]

theorem handles_concerns {pid : Int64} {state : State} {sw : Switch}
    (handled : Handles pid state sw) : sw.Concerns pid :=
  handled.imp id And.left

theorem tracked_append (pid : Int64) (ps : PrevState) (front back : List Switch) :
    tracked pid ps (front ++ back) = tracked pid (tracked pid ps front) back :=
  List.foldl_append

theorem tracked_unconcerned (pid : Int64) (ps : PrevState) (swl : List Switch)
    (quiet : ∀ sw ∈ swl, ¬sw.Concerns pid) : tracked pid ps swl = ps := by
  induction swl with
  | nil => rfl
  | cons sw rest ih =>
      have still : track pid ps sw = ps :=
        if_neg fun handled => quiet sw List.mem_cons_self (handles_concerns handled)
      change tracked pid (track pid ps sw) rest = ps
      rw [still]
      exact ih fun other member => quiet other (List.mem_cons_of_mem sw member)

theorem tracked_blocked_iff (pid : Int64) (ps : PrevState) (awake : ps.state ≠ .blocked)
    (front : List Switch) (t : UInt64) :
    tracked pid ps front = ⟨t, .blocked⟩ ↔
      ∃ out, WaitsSince pid out front ∧ out.time = t := by
  constructor
  · intro blocked
    induction front using List.reverseRecOn with
    | nil =>
        have stays : ps = ⟨t, .blocked⟩ := blocked
        exact absurd (congrArg PrevState.state stays) awake
    | append_singleton front last ih =>
        rw [tracked_append] at blocked
        change track pid (tracked pid ps front) last = _ at blocked
        unfold track at blocked
        by_cases handled : Handles pid (tracked pid ps front).state last
        · rw [if_pos handled] at blocked
          have left := congrArg PrevState.state blocked
          have stamp := congrArg PrevState.timestamp blocked
          rcases (state_left_blocked_iff pid last (handles_concerns handled)).mp left with
            ⟨out, stopped⟩
          refine ⟨last, ⟨front, [], rfl, out, stopped, ?_⟩, stamp⟩
          exact fun event member => absurd member List.not_mem_nil
        · rw [if_neg handled] at blocked
          rcases ih blocked with ⟨out, ⟨before, middle, split, switches, stopped, quiet⟩, stamp⟩
          refine ⟨out, ⟨before, middle ++ [last], ?_, switches, stopped, ?_⟩, stamp⟩
          · rw [split, List.append_assoc]
            rfl
          · intro event member
            rcases List.mem_append.mp member with earlier | atEnd
            · exact quiet event earlier
            · -- a blocked thread handles every event that concerns it
              rw [List.mem_singleton.mp atEnd]
              intro concerns
              apply handled
              rw [blocked]
              exact concerns.imp id fun wakes => ⟨wakes, rfl⟩
  · intro ⟨out, ⟨before, middle, split, switches, stopped, quiet⟩, stamp⟩
    have switched : out.Switches pid := ⟨switches.1, Or.inl switches.2⟩
    have handled : Handles pid (tracked pid ps before).state out := Or.inl switched
    have left : stateLeftBy pid out = .blocked :=
      (state_left_blocked_iff pid out (Or.inl switched)).mpr ⟨switches, stopped⟩
    rw [split, tracked_append]
    change tracked pid (track pid (tracked pid ps before) out) middle = _
    rw [tracked_unconcerned pid _ middle quiet, track, if_pos handled, left, stamp]

theorem unset_blocked_iff (pid : Int64) (start t : UInt64) (front : List Switch) :
    tracked pid ⟨start, .unset⟩ front = ⟨t, .blocked⟩ ↔
      ∃ out, WaitsSince pid out front ∧ out.time = t :=
  tracked_blocked_iff pid ⟨start, .unset⟩ (by intro same; cases same) front t

theorem pieces_blocked_iff (sm : SoftMap) (pid : Int64) (pt : UInt64) (sw : Switch)
    (seg : Segment) :
    seg ∈ pieces sm pid pt sw ∧ seg.state = .blocked ↔
      sw.type ≠ 0 ∧ seg = ⟨pid, .blocked, pt, sw.time, wakerOf sw⟩ := by
  unfold pieces
  by_cases switch : sw.type = 0
  · rw [if_pos switch]
    apply iff_of_false
    · intro ⟨member, blocked⟩
      split_ifs at member with out
      · cases ceiling : getCeilingSoft sm sw.cpu pt with
        | none =>
            rw [ceiling, List.mem_singleton] at member
            rw [member] at blocked
            cases blocked
        | some sf =>
            rw [ceiling] at member
            dsimp only at member
            split_ifs at member
            · simp only [List.mem_cons, List.not_mem_nil, or_false] at member
              rcases member with front | middle | back
              · rw [front] at blocked
                cases blocked
              · rw [middle] at blocked
                cases blocked
              · rw [back] at blocked
                cases blocked
            · rw [List.mem_singleton] at member
              rw [member] at blocked
              cases blocked
      · rw [List.mem_singleton] at member
        rw [member] at blocked
        cases blocked
    · exact fun both => both.1 switch
  · rw [if_neg switch, List.mem_singleton]
    constructor
    · exact fun both => ⟨switch, both.1⟩
    · intro ⟨_, same⟩
      exact ⟨same, by rw [same]⟩

theorem woken_cons_iff (pid : Int64) (ps : PrevState) (sw : Switch) (rest : List Switch)
    (seg : Segment) :
    (∃ front wake back t, sw :: rest = front ++ wake :: back ∧ wake.Wakes pid ∧
        tracked pid ps front = ⟨t, .blocked⟩ ∧
        seg = ⟨pid, .blocked, t, wake.time, wakerOf wake⟩) ↔
      (sw.Wakes pid ∧ ps.state = .blocked ∧
        seg = ⟨pid, .blocked, ps.timestamp, sw.time, wakerOf sw⟩) ∨
      ∃ front wake back t, rest = front ++ wake :: back ∧ wake.Wakes pid ∧
        tracked pid (track pid ps sw) front = ⟨t, .blocked⟩ ∧
        seg = ⟨pid, .blocked, t, wake.time, wakerOf wake⟩ := by
  constructor
  · intro woken
    obtain ⟨front, wake, back, t, split, wakes, state, same⟩ := woken
    cases front with
    | nil =>
        obtain ⟨here, _⟩ := List.cons.inj split
        have stamp : ps.timestamp = t := congrArg PrevState.timestamp state
        have blocked : ps.state = .blocked := congrArg PrevState.state state
        rw [here, stamp]
        exact Or.inl ⟨wakes, blocked, same⟩
    | cons head front =>
        obtain ⟨here, there⟩ := List.cons.inj split
        rw [← here] at state
        exact Or.inr ⟨front, wake, back, t, there, wakes, state, same⟩
  · intro woken
    rcases woken with ⟨wakes, blocked, same⟩ | ⟨front, wake, back, t, split, wakes, state, same⟩
    · refine ⟨[], sw, rest, ps.timestamp, rfl, wakes, ?_, same⟩
      rw [← blocked]
      rfl
    · exact ⟨sw :: front, wake, back, t, by rw [split]; rfl, wakes, state, same⟩

/-- The BLOCKED pieces of the log: one for each wakeup that finds the tracked
state BLOCKED. -/
theorem log_blocked_iff (sm : SoftMap) (pid : Int64) (ps : PrevState) (swl : List Switch)
    (seg : Segment) :
    seg ∈ segmentLog sm pid ps.timestamp (handledFrom pid ps.state swl) ∧
        seg.state = .blocked ↔
      ∃ front wake back t, swl = front ++ wake :: back ∧ wake.Wakes pid ∧
        tracked pid ps front = ⟨t, .blocked⟩ ∧
        seg = ⟨pid, .blocked, t, wake.time, wakerOf wake⟩ := by
  induction swl generalizing ps with
  | nil => simp [handledFrom, segmentLog]
  | cons sw rest ih =>
      rw [woken_cons_iff]
      by_cases handled : Handles pid ps.state sw
      · have unfolded : segmentLog sm pid ps.timestamp (handledFrom pid ps.state (sw :: rest)) =
            pieces sm pid ps.timestamp sw ++
              segmentLog sm pid (track pid ps sw).timestamp
                (handledFrom pid (track pid ps sw).state rest) := by
          simp only [handledFrom, track, if_pos handled, segmentLog]
        rw [unfolded, List.mem_append, or_and_right, ih, pieces_blocked_iff]
        refine or_congr_left ⟨?_, ?_⟩
        · intro recorded
          obtain ⟨notSwitch, same⟩ := recorded
          rcases handled with switches | ⟨wakes, blocked⟩
          · exact absurd switches.1 notSwitch
          · exact ⟨wakes, blocked, same⟩
        · intro woken
          obtain ⟨wakes, _, same⟩ := woken
          refine ⟨?_, same⟩
          rw [wakes.1]
          decide
      · have unfolded : segmentLog sm pid ps.timestamp (handledFrom pid ps.state (sw :: rest)) =
            segmentLog sm pid (track pid ps sw).timestamp
              (handledFrom pid (track pid ps sw).state rest) := by
          simp only [handledFrom, track, if_neg handled]
        have notWoken : ¬(sw.Wakes pid ∧ ps.state = .blocked ∧
            seg = ⟨pid, .blocked, ps.timestamp, sw.time, wakerOf sw⟩) :=
          fun woken => handled (Or.inr ⟨woken.1, woken.2.1⟩)
        rw [unfolded, ih, or_iff_right notWoken]

theorem alive_positive_log (sl : List Soft) (swl : List Switch) (pid : Int64)
    (sorted : TimeSorted swl) (alive : ¬Exits pid swl) (inside : SoftirqsInside sl swl pid) :
    Timeline.positive Segment.stime Segment.etime
        (Segments.new.storeAll (threadLog sl swl pid ++ [placeholder swl pid])).list =
      Timeline.positive Segment.stime Segment.etime (threadLog sl swl pid) := by
  cases handled : handledEvents pid swl with
  | nil =>
      have emptyLog : threadLog sl swl pid = [] := by
        rw [threadLog, handled]
        rfl
      have point : ¬(placeholder swl pid).stime < (placeholder swl pid).etime := lt_irrefl _
      rw [emptyLog]
      change List.filter _ [placeholder swl pid] = []
      rw [List.filter_singleton, decide_eq_false point]
      rfl
  | cons first rest =>
      rw [alive_positive_segments sl swl pid first rest sorted alive inside handled]
      have split := thread_log_cons sl swl pid first rest handled
      rw [initial_time_alive pid swl alive] at split
      have inTrace := handled_within_trace pid swl sorted first
        (by rw [handled]; exact List.mem_cons_self)
      have dropped : Timeline.positive Segment.stime Segment.etime
          (pieces (softMapInit sl ∅) pid (traceEnd swl) first) = [] := by
        apply List.filter_eq_nil_iff.mpr
        intro seg member
        rcases pieces_backwards sl pid (traceEnd swl) first inTrace.2 seg member with
          ⟨start, finish⟩
        rw [start, finish]
        simpa using inTrace.2
      rw [split]
      unfold Timeline.positive at dropped ⊢
      rw [List.filter_append, dropped, List.nil_append]

theorem thread_log_blocked_iff (sl : List Soft) (swl : List Switch) (pid : Int64)
    (seg : Segment) :
    seg ∈ threadLog sl swl pid ∧ seg.state = .blocked ↔
      ∃ front out wake back, swl = front ++ wake :: back ∧ WaitsSince pid out front ∧
        wake.Wakes pid ∧ seg = ⟨pid, .blocked, out.time, wake.time, wakerOf wake⟩ := by
  have log := log_blocked_iff (softMapInit sl ∅) pid ⟨initialTime pid swl, .unset⟩ swl seg
  unfold threadLog handledEvents
  rw [log]
  constructor
  · intro ⟨front, wake, back, t, split, wakes, state, same⟩
    rcases (unset_blocked_iff pid _ t front).mp state with ⟨out, waits, stamp⟩
    exact ⟨front, out, wake, back, split, waits, wakes, by rw [same, stamp]⟩
  · intro ⟨front, out, wake, back, split, waits, wakes, same⟩
    exact ⟨front, wake, back, out.time, split, wakes,
      (unset_blocked_iff pid _ out.time front).mpr ⟨out, waits, rfl⟩, same⟩

/-- The BLOCKED segments of positive length are the real waits, and a wakeup
that ends no wait leaves the loop's variables as they were. -/
theorem blocked_segments_are_real_waits (pl : List Int64) (swl : List Switch) (sl : List Soft)
    (pid : Int64) (nonempty : swl ≠ []) (sorted : TimeSorted swl) (listed : pid ∈ pl)
    (alive : ¬Exits pid swl) (inside : SoftirqsInside sl swl pid) :
    ∃ segs, segmentsAfter pl swl sl pid = .ok segs ∧
      (∀ seg, (seg ∈ segs.list ∧ seg.state = .blocked ∧ seg.stime < seg.etime) ↔
        RealWait swl pid seg) ∧
      ∀ front wake back, swl = front ++ wake :: back → wake.Wakes pid →
        (¬∃ out, WaitsSince pid out front) →
        (front ++ [wake]).foldl (breakStep (softMapInit sl ∅) pid)
            ⟨⟨initialTime pid swl, .unset⟩, .new⟩ =
          front.foldl (breakStep (softMapInit sl ∅) pid)
            ⟨⟨initialTime pid swl, .unset⟩, .new⟩ := by
  refine ⟨Segments.new.storeAll (threadLog sl swl pid ++ [placeholder swl pid]), ?_, ?_, ?_⟩
  · exact (segments_after_eq pl swl sl pid nonempty listed).trans
      (thread_segments_alive sl swl pid alive)
  · intro seg
    have survives : (seg ∈ (Segments.new.storeAll
        (threadLog sl swl pid ++ [placeholder swl pid])).list ∧ seg.stime < seg.etime) ↔
          seg ∈ threadLog sl swl pid ∧ seg.stime < seg.etime := by
      rw [← Timeline.mem_positive Segment.stime Segment.etime,
        alive_positive_log sl swl pid sorted alive inside,
        Timeline.mem_positive Segment.stime Segment.etime]
    constructor
    · intro ⟨member, blocked, long⟩
      rcases (thread_log_blocked_iff sl swl pid seg).mp
        ⟨(survives.mp ⟨member, long⟩).1, blocked⟩ with
        ⟨front, out, wake, back, split, waits, wakes, same⟩
      rw [same] at long
      exact ⟨front, out, wake, back, split, waits, wakes, long, same⟩
    · intro ⟨front, out, wake, back, split, waits, wakes, long, same⟩
      rcases (thread_log_blocked_iff sl swl pid seg).mpr
        ⟨front, out, wake, back, split, waits, wakes, same⟩ with ⟨logged, blocked⟩
      have positive : seg.stime < seg.etime := by
        rw [same]
        exact long
      exact ⟨(survives.mpr ⟨logged, positive⟩).1, blocked, positive⟩
  · intro front wake back _ wakes idle
    rw [List.foldl_append, List.foldl_cons, List.foldl_nil]
    apply break_step_other
    rw [break_loop_run]
    intro handled
    rcases handled with switches | ⟨_, blocked⟩
    · have wakeup := wakes.1
      rw [switches.1] at wakeup
      exact absurd wakeup (by decide)
    · apply idle
      have since : tracked pid ⟨initialTime pid swl, .unset⟩ front =
          ⟨(tracked pid ⟨initialTime pid swl, .unset⟩ front).timestamp, .blocked⟩ := by
        rw [← blocked]
      rcases (unset_blocked_iff pid _ _ front).mp since with ⟨out, waits, _⟩
      exact ⟨out, waits⟩

theorem preempted_thread_waits :
    ∃ segs, segmentsAfter [1] preemptedTrace [⟨0, 15, 20⟩] 1 = .ok segs ∧
      (∀ seg, (seg ∈ segs.list ∧ seg.state = .blocked ∧ seg.stime < seg.etime) ↔
        RealWait preemptedTrace 1 seg) ∧
      ∀ front wake back, preemptedTrace = front ++ wake :: back → wake.Wakes 1 →
        (¬∃ out, WaitsSince 1 out front) →
        (front ++ [wake]).foldl (breakStep (softMapInit [⟨0, 15, 20⟩] ∅) 1)
            ⟨⟨initialTime 1 preemptedTrace, .unset⟩, .new⟩ =
          front.foldl (breakStep (softMapInit [⟨0, 15, 20⟩] ∅) 1)
            ⟨⟨initialTime 1 preemptedTrace, .unset⟩, .new⟩ :=
  blocked_segments_are_real_waits [1] preemptedTrace [⟨0, 15, 20⟩] 1 (by decide) (by decide)
    (by decide) (by decide) (by decide)

end WPerf.Analyzer
