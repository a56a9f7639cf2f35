import WPerf.Analyzer.Cascade

/-!
# One thread's handled events

What the loop of `BreakIntoSegments` does, said once. An event is handled when
it switches the thread in or out, or wakes it while it is blocked. The loop
over a trace is a run over the handled events alone: each one stores the
pieces between the previous handled time and its own, and leaves a state that
depends on nothing earlier.
-/

namespace WPerf.Analyzer

open WPerf.Library

set_option autoImplicit false

def Switch.SwitchesOut (pid : Int64) (sw : Switch) : Prop := sw.type = 0 ∧ sw.prevPid = pid

def Switch.Switches (pid : Int64) (sw : Switch) : Prop :=
  sw.type = 0 ∧ (sw.prevPid = pid ∨ sw.nextPid = pid)

def Switch.Wakes (pid : Int64) (sw : Switch) : Prop := sw.type = 1 ∧ sw.nextPid = pid

def Switch.Concerns (pid : Int64) (sw : Switch) : Prop := sw.Switches pid ∨ sw.Wakes pid

/-- The events that change the thread's tracked state. -/
def Handles (pid : Int64) (state : State) (sw : Switch) : Prop :=
  sw.Switches pid ∨ (sw.Wakes pid ∧ state = .blocked)

instance (pid : Int64) (sw : Switch) : Decidable (sw.SwitchesOut pid) :=
  inferInstanceAs (Decidable (_ ∧ _))

instance (pid : Int64) (sw : Switch) : Decidable (sw.Switches pid) :=
  inferInstanceAs (Decidable (_ ∧ _))

instance (pid : Int64) (sw : Switch) : Decidable (sw.Wakes pid) :=
  inferInstanceAs (Decidable (_ ∧ _))

instance (pid : Int64) (sw : Switch) : Decidable (sw.Concerns pid) :=
  inferInstanceAs (Decidable (_ ∨ _))

instance (pid : Int64) (state : State) (sw : Switch) : Decidable (Handles pid state sw) :=
  inferInstanceAs (Decidable (_ ∨ _))

def stateLeftBy (pid : Int64) (sw : Switch) : State :=
  if sw.type = 0 then
    if sw.prevPid = pid then
      if isRunnable sw.prevState then .runnable else .blocked
    else .running
  else .runnable

/-- The thread a wakeup is charged to, or minus the interrupt that made it. -/
def wakerOf (sw : Switch) : Int64 :=
  if sw.inWhichCtx = process then sw.prevPid else -sw.inWhichCtx

/-- What a handled event records, given the time of the handled event before
it. A switch-out may be split by one softirq. -/
def pieces (sm : SoftMap) (pid : Int64) (pt : UInt64) (sw : Switch) : List Segment :=
  if sw.type = 0 then
    if sw.prevPid = pid then
      match getCeilingSoft sm sw.cpu pt with
      | none => [⟨pid, .running, pt, sw.time, noneId⟩]
      | some sf =>
          if sf.stime < sw.time ∧ sf.etime < sw.time then
            [⟨pid, .running, pt, sf.stime, noneId⟩,
              ⟨pid, .runnable, sf.stime, sf.etime, noneId⟩,
              ⟨pid, .running, sf.etime, sw.time, noneId⟩]
          else [⟨pid, .running, pt, sw.time, noneId⟩]
    else [⟨pid, .runnable, pt, sw.time, noneId⟩]
  else [⟨pid, .blocked, pt, sw.time, wakerOf sw⟩]

/-- A handled event records one piece from the previous time to its own, or a
switch-out is split by a softirq that starts and ends before it. -/
theorem pieces_cases (sm : SoftMap) (pid : Int64) (pt : UInt64) (sw : Switch) :
    (∃ state waitFor, pieces sm pid pt sw = [⟨pid, state, pt, sw.time, waitFor⟩]) ∨
      sw.SwitchesOut pid ∧ ∃ sf, getCeilingSoft sm sw.cpu pt = some sf ∧
        sf.stime < sw.time ∧ sf.etime < sw.time ∧
        pieces sm pid pt sw =
          [⟨pid, .running, pt, sf.stime, noneId⟩,
            ⟨pid, .runnable, sf.stime, sf.etime, noneId⟩,
            ⟨pid, .running, sf.etime, sw.time, noneId⟩] := by
  unfold pieces
  split_ifs with switch out
  · cases ceiling : getCeilingSoft sm sw.cpu pt with
    | none => exact Or.inl ⟨.running, noneId, rfl⟩
    | some sf =>
        dsimp only
        split_ifs with preempted
        · exact Or.inr ⟨⟨switch, out⟩, sf, rfl, preempted.1, preempted.2, rfl⟩
        · exact Or.inl ⟨.running, noneId, rfl⟩
  · exact Or.inl ⟨.runnable, noneId, rfl⟩
  · exact Or.inl ⟨.blocked, wakerOf sw, rfl⟩

theorem pieces_pid (sm : SoftMap) (pid : Int64) (pt : UInt64) (sw : Switch) (seg : Segment)
    (member : seg ∈ pieces sm pid pt sw) : seg.pid = pid := by
  rcases pieces_cases sm pid pt sw with ⟨state, waitFor, single⟩ | ⟨_, sf, _, _, _, three⟩
  · rw [single] at member
    rw [List.mem_singleton.mp member]
  · rw [three] at member
    simp only [List.mem_cons, List.not_mem_nil, or_false] at member
    rcases member with rfl | rfl | rfl <;> rfl

def segmentLog (sm : SoftMap) (pid : Int64) : UInt64 → List Switch → List Segment
  | _, [] => []
  | pt, sw :: rest => pieces sm pid pt sw ++ segmentLog sm pid sw.time rest

theorem segment_log_pid (sm : SoftMap) (pid : Int64) (pt : UInt64) (swl : List Switch)
    (seg : Segment) (member : seg ∈ segmentLog sm pid pt swl) : seg.pid = pid := by
  induction swl generalizing pt with
  | nil => exact absurd member List.not_mem_nil
  | cons sw rest ih =>
      rcases List.mem_append.mp member with own | later
      · exact pieces_pid sm pid pt sw seg own
      · exact ih sw.time later

def handledFrom (pid : Int64) : State → List Switch → List Switch
  | _, [] => []
  | state, sw :: rest =>
      if Handles pid state sw then sw :: handledFrom pid (stateLeftBy pid sw) rest
      else handledFrom pid state rest

/-- Init leaves every listed thread's state at -1, which no wakeup matches. -/
def handledEvents (pid : Int64) (swl : List Switch) : List Switch := handledFrom pid .unset swl

def track (pid : Int64) (ps : PrevState) (sw : Switch) : PrevState :=
  if Handles pid ps.state sw then ⟨sw.time, stateLeftBy pid sw⟩ else ps

def tracked (pid : Int64) (ps : PrevState) (swl : List Switch) : PrevState :=
  swl.foldl (track pid) ps

def Segments.storeAll (segs : Segments) (list : List Segment) : Segments :=
  list.foldl Segments.store segs

theorem store_all_append (segs : Segments) (front back : List Segment) :
    segs.storeAll (front ++ back) = (segs.storeAll front).storeAll back := by
  simp [Segments.storeAll]

theorem store_all_tm (segs : Segments) (list : List Segment) :
    (segs.storeAll list).tm = Timeline.recordAll Segment.stime list segs.tm := by
  induction list generalizing segs with
  | nil => rfl
  | cons seg rest ih => exact ih (segs.store seg)

theorem break_step_other (sm : SoftMap) (pid : Int64) (loop : Loop) (sw : Switch)
    (other : ¬Handles pid loop.ps.state sw) : breakStep sm pid loop sw = loop := by
  have notSwitch : ¬sw.Switches pid := fun switch => other (Or.inl switch)
  have notWaking : sw.Wakes pid → loop.ps.state ≠ .blocked :=
    fun wakes blocked => other (Or.inr ⟨wakes, blocked⟩)
  unfold breakStep
  dsimp only
  by_cases switch : sw.type = 0
  · have notOut : sw.prevPid ≠ pid := fun out => notSwitch ⟨switch, Or.inl out⟩
    have notIn : sw.nextPid ≠ pid := fun into => notSwitch ⟨switch, Or.inr into⟩
    rw [if_pos switch, if_neg notOut, if_neg notIn]
  · rw [if_neg switch]
    by_cases wakeup : sw.type = 1
    · rw [if_pos wakeup]
      by_cases target : sw.nextPid = pid
      · rw [if_pos target, if_pos (notWaking ⟨wakeup, target⟩)]
      · rw [if_neg target]
    · rw [if_neg wakeup]

theorem break_step_handled (sm : SoftMap) (pid : Int64) (loop : Loop) (sw : Switch)
    (handled : Handles pid loop.ps.state sw) :
    breakStep sm pid loop sw =
      ⟨⟨sw.time, stateLeftBy pid sw⟩, loop.segs.storeAll (pieces sm pid loop.ps.timestamp sw)⟩ := by
  rcases handled with ⟨switch, involved⟩ | ⟨⟨wakeup, target⟩, blocked⟩
  · unfold breakStep stateLeftBy pieces
    simp only [switch, if_true]
    by_cases out : sw.prevPid = pid
    · simp only [out, if_true]
      have state : (if isRunnable sw.prevState then loop.ps.updateToRunnable sw.time
          else loop.ps.updateToStopped sw.time) =
            ⟨sw.time, if isRunnable sw.prevState then .runnable else .blocked⟩ := by
        by_cases runs : isRunnable sw.prevState <;>
          simp [runs, PrevState.updateToRunnable, PrevState.updateToStopped]
      rw [state]
      cases getCeilingSoft sm sw.cpu loop.ps.timestamp with
      | none => rfl
      | some sf =>
          by_cases preempted : sf.stime < sw.time ∧ sf.etime < sw.time
          · simp only [if_pos preempted]
            rfl
          · simp only [if_neg preempted]
            rfl
    · have into : sw.nextPid = pid := involved.resolve_left out
      simp only [out, into, if_true, if_false]
      rfl
  · have notSwitch : sw.type ≠ 0 := by
      rw [wakeup]
      decide
    have stays : ¬loop.ps.state ≠ .blocked := fun other => other blocked
    unfold breakStep stateLeftBy pieces wakerOf
    dsimp only
    simp only [if_neg notSwitch]
    rw [if_pos wakeup, if_pos target, if_neg stays]
    by_cases context : sw.inWhichCtx = process
    · simp only [if_pos context]
      rfl
    · simp only [if_neg context]
      rfl

/-- The whole loop: the log of the handled events goes into the map. -/
theorem break_loop_run (sm : SoftMap) (pid : Int64) (swl : List Switch) (loop : Loop) :
    swl.foldl (breakStep sm pid) loop =
      ⟨tracked pid loop.ps swl,
        loop.segs.storeAll
          (segmentLog sm pid loop.ps.timestamp (handledFrom pid loop.ps.state swl))⟩ := by
  induction swl generalizing loop with
  | nil => rfl
  | cons sw rest ih =>
      have unfolded : tracked pid loop.ps (sw :: rest) =
          tracked pid (track pid loop.ps sw) rest := rfl
      rw [List.foldl_cons, unfolded]
      by_cases handled : Handles pid loop.ps.state sw
      · rw [break_step_handled sm pid loop sw handled, ih]
        simp only [handledFrom, track, if_pos handled, segmentLog, store_all_append]
      · rw [break_step_other sm pid loop sw handled, ih]
        simp only [handledFrom, track, if_neg handled]

theorem tracked_by_last (pid : Int64) (ps : PrevState) (swl : List Switch) :
    tracked pid ps swl =
      match (handledFrom pid ps.state swl).getLast? with
      | none => ps
      | some last => ⟨last.time, stateLeftBy pid last⟩ := by
  induction swl generalizing ps with
  | nil => rfl
  | cons sw rest ih =>
      have unfolded : tracked pid ps (sw :: rest) = tracked pid (track pid ps sw) rest := rfl
      rw [unfolded, ih]
      by_cases handled : Handles pid ps.state sw
      · simp only [handledFrom, track, if_pos handled]
        rw [List.getLast?_cons]
        cases (handledFrom pid (stateLeftBy pid sw) rest).getLast? <;> rfl
      · simp only [handledFrom, track, if_neg handled]

theorem handled_from_sublist (pid : Int64) (state : State) (swl : List Switch) :
    (handledFrom pid state swl).Sublist swl := by
  induction swl generalizing state with
  | nil => exact List.Sublist.slnil
  | cons sw rest ih =>
      by_cases handled : Handles pid state sw
      · simp only [handledFrom, if_pos handled]
        exact (ih _).cons_cons sw
      · simp only [handledFrom, if_neg handled]
        exact (ih _).cons sw

/-- A thread that is not blocked is first handled at its first switch_to. -/
theorem handled_from_head (pid : Int64) (state : State) (awake : state ≠ .blocked)
    (swl : List Switch) :
    (handledFrom pid state swl).head? = swl.find? fun sw => sw.Switches pid := by
  induction swl with
  | nil => rfl
  | cons sw rest ih =>
      have same : Handles pid state sw ↔ sw.Switches pid :=
        or_iff_left fun waking => awake waking.2
      rw [List.find?_cons]
      by_cases switches : sw.Switches pid
      · simp only [handledFrom, if_pos (same.mpr switches), switches, decide_true]
        rfl
      · simp only [handledFrom, if_neg fun handled => switches (same.mp handled), switches,
          decide_false]
        exact ih

theorem switches_handled (pid : Int64) (state : State) (swl : List Switch) (sw : Switch)
    (member : sw ∈ swl) (switches : sw.Switches pid) : sw ∈ handledFrom pid state swl := by
  induction swl generalizing state with
  | nil => simp at member
  | cons head rest ih =>
      rcases List.mem_cons.mp member with rfl | later
      · simp only [handledFrom, if_pos (show Handles pid state sw from Or.inl switches)]
        exact List.mem_cons_self
      · by_cases handled : Handles pid state head
        · simp only [handledFrom, if_pos handled]
          exact List.mem_cons_of_mem head (ih _ later)
        · simp only [handledFrom, if_neg handled]
          exact ih _ later

theorem handled_nonempty (pid : Int64) (swl : List Switch) (sw : Switch) (member : sw ∈ swl)
    (switches : sw.Switches pid) : handledEvents pid swl ≠ [] := by
  intro empty
  have handled := switches_handled pid .unset swl sw member switches
  unfold handledEvents at empty
  rw [empty] at handled
  exact List.not_mem_nil handled

/-- The first event a listed thread is handled at is a switch_to, so a trace
without one leaves it no segment. -/
theorem handled_nonempty_iff (pid : Int64) (swl : List Switch) :
    handledEvents pid swl ≠ [] ↔ ∃ sw ∈ swl, sw.Switches pid := by
  constructor
  · intro active
    have awake : State.unset ≠ .blocked := by decide
    have first := handled_from_head pid .unset awake swl
    obtain ⟨sw, atHead⟩ := Option.isSome_iff_exists.mp (List.isSome_head?.mpr active)
    rw [show (handledFrom pid .unset swl).head? = some sw from atHead] at first
    have switches := List.find?_some first.symm
    exact ⟨sw, List.mem_of_find?_eq_some first.symm, of_decide_eq_true switches⟩
  · rintro ⟨sw, member, switches⟩
    exact handled_nonempty pid swl sw member switches

end WPerf.Analyzer
