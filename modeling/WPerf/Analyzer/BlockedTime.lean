import WPerf.Analyzer.Waits

/-!
# Blocked time is well formed and bounded

Nothing is assumed of the softirq table here. Softirq pieces may land
anywhere in the map, and may replace a BLOCKED segment, but never make one.
The exit branch changes the end of the segment under the exit time, which
becomes a point. So the BLOCKED segments of a thread are waits of the trace or
points of it.
-/

namespace WPerf.Analyzer

open WPerf.Library

set_option autoImplicit false

theorem tracked_timestamp_le (pid : Int64) (ps : PrevState) (swl : List Switch)
    (lower : UInt64) (started : lower ≤ ps.timestamp) (reached : ∀ sw ∈ swl, lower ≤ sw.time) :
    lower ≤ (tracked pid ps swl).timestamp := by
  induction swl generalizing ps with
  | nil => exact started
  | cons sw rest ih =>
      apply ih (track pid ps sw)
      · unfold track
        split_ifs
        · exact reached sw List.mem_cons_self
        · exact started
      · exact fun other member => reached other (List.mem_cons_of_mem sw member)

/-- Of two wakeups that end waits, the later one ends a wait that began after
the earlier one. -/
theorem later_wait_follows (pid : Int64) (start : PrevState) (front gap back back' : List Switch)
    (wake wake' : Switch) (t t' : UInt64) (sorted : TimeSorted (front ++ wake :: back))
    (rest : wake :: back = gap ++ wake' :: back') (wakes : wake.Wakes pid)
    (state : tracked pid start front = ⟨t, .blocked⟩)
    (state' : tracked pid start (front ++ gap) = ⟨t', .blocked⟩) :
    (wake = wake' ∧ t = t') ∨ wake.time ≤ t' := by
  cases gap with
  | nil =>
      rw [List.append_nil, state] at state'
      have sameStamp : t = t' := congrArg PrevState.timestamp state'
      exact Or.inl ⟨(List.cons.inj rest).1, sameStamp⟩
  | cons head middle =>
      rcases List.cons.inj rest with ⟨sameWake, backIs⟩
      rw [← sameWake] at state'
      have reached : ∀ sw ∈ middle, wake.time ≤ sw.time := by
        intro sw member
        have inBack : sw ∈ back := by
          rw [backIs]
          exact List.mem_append_left _ member
        exact (List.pairwise_cons.mp (List.pairwise_append.mp sorted).2.1).1 sw inBack
      have blocked : (tracked pid start front).state = .blocked :=
        congrArg PrevState.state state
      have handled : Handles pid (tracked pid start front).state wake := Or.inr ⟨wakes, blocked⟩
      have woken : track pid (tracked pid start front) wake =
          ⟨wake.time, stateLeftBy pid wake⟩ := if_pos handled
      have run : tracked pid start (front ++ wake :: middle) =
          tracked pid ⟨wake.time, stateLeftBy pid wake⟩ middle := by
        rw [tracked_append, ← woken]
        rfl
      have bound := tracked_timestamp_le pid ⟨wake.time, stateLeftBy pid wake⟩ middle wake.time
        (le_refl _) reached
      rw [← run, state'] at bound
      exact Or.inr bound

/-- Two BLOCKED pieces of one log are the same or follow one another. -/
theorem log_waits_apart (sl : List Soft) (swl : List Switch) (pid : Int64)
    (sorted : TimeSorted swl) (left right : Segment)
    (leftLogged : left ∈ threadLog sl swl pid) (leftBlocked : left.state = .blocked)
    (rightLogged : right ∈ threadLog sl swl pid) (rightBlocked : right.state = .blocked) :
    left = right ∨ left.etime ≤ right.stime ∨ right.etime ≤ left.stime := by
  let start : PrevState := ⟨initialTime pid swl, .unset⟩
  rcases (log_blocked_iff _ pid start swl left).mp ⟨leftLogged, leftBlocked⟩ with
    ⟨front, wake, back, t, split, wakes, state, leftIs⟩
  rcases (log_blocked_iff _ pid start swl right).mp ⟨rightLogged, rightBlocked⟩ with
    ⟨front', wake', back', t', split', wakes', state', rightIs⟩
  rcases List.append_eq_append_iff.mp (split.symm.trans split') with
    ⟨gap, later, rest⟩ | ⟨gap, later, rest⟩
  · rw [split] at sorted
    rw [later] at state'
    rcases later_wait_follows pid start front gap back back' wake wake' t t' sorted rest wakes
      state state' with ⟨sameWake, sameStamp⟩ | follows
    · exact Or.inl (by rw [leftIs, rightIs, sameWake, sameStamp])
    · exact Or.inr (Or.inl (by rw [leftIs, rightIs]; exact follows))
  · rw [split'] at sorted
    rw [later] at state
    rcases later_wait_follows pid start front' gap back' back wake' wake t' t sorted rest wakes'
      state' state with ⟨sameWake, sameStamp⟩ | follows
    · exact Or.inl (by rw [leftIs, rightIs, sameWake, sameStamp])
    · exact Or.inr (Or.inr (by rw [leftIs, rightIs]; exact follows))

theorem log_wait_bounds (sl : List Soft) (swl : List Switch) (pid : Int64)
    (sorted : TimeSorted swl) (seg : Segment) (logged : seg ∈ threadLog sl swl pid)
    (blocked : seg.state = .blocked) :
    traceStart swl ≤ seg.stime ∧ seg.stime ≤ seg.etime ∧ seg.etime ≤ traceEnd swl := by
  rcases (thread_log_blocked_iff sl swl pid seg).mp ⟨logged, blocked⟩ with
    ⟨front, out, wake, back, split, ⟨before, middle, waits, _⟩, _, same⟩
  have outMember : out ∈ front := by
    rw [waits]
    simp
  have order := sorted
  unfold TimeSorted at order
  rw [split] at order
  have forward := (List.pairwise_append.mp order).2.2 out outMember wake List.mem_cons_self
  have low := (time_within_trace sorted out (by rw [split]; simp [outMember])).1
  have high := (time_within_trace sorted wake (by rw [split]; simp)).2
  rw [same]
  exact ⟨low, forward, high⟩

theorem list_ordered (segs : Segments) :
    segs.list.Pairwise fun earlier later => earlier.stime < later.stime := by
  rw [Segments.list, OrderedMap.values, List.pairwise_map]
  refine segs.tm.sorted.imp_of_mem ?_
  intro left right leftMember rightMember order
  rw [segs.keyed left leftMember, segs.keyed right rightMember]
  exact order

def blockedList (segs : Segments) : List Segment :=
  segs.list.filter fun seg => seg.state = .blocked

theorem mem_blocked_list (segs : Segments) (seg : Segment) :
    seg ∈ blockedList segs ↔ seg ∈ segs.list ∧ seg.state = .blocked := by
  simp [blockedList]

theorem thread_blocked_within {sl : List Soft} {swl : List Switch} {pid : Int64}
    {segs : Segments} (nonempty : swl ≠ []) (sorted : TimeSorted swl)
    (cut : threadSegments sl swl pid = .ok segs) (seg : Segment)
    (member : seg ∈ blockedList segs) :
    traceStart swl ≤ seg.stime ∧ seg.stime ≤ seg.etime ∧ seg.etime ≤ traceEnd swl := by
  rcases (mem_blocked_list segs seg).mp member with ⟨stored, blocked⟩
  rcases stored_cases sl swl pid segs cut seg stored with ⟨logged, _⟩ | ⟨start, finish, _⟩
  · exact log_wait_bounds sl swl pid sorted seg logged blocked
  · obtain ⟨low, high⟩ := initial_time_within nonempty sorted pid
    rw [start, finish]
    exact ⟨low, le_refl _, high⟩

theorem thread_blocked_apart {sl : List Soft} {swl : List Switch} {pid : Int64}
    {segs : Segments} (sorted : TimeSorted swl) (cut : threadSegments sl swl pid = .ok segs) :
    (blockedList segs).Pairwise (Timeline.Apart Segment.stime Segment.etime) := by
  refine ((list_ordered segs).filter _).imp_of_mem ?_
  intro left right leftMember rightMember order
  rcases (mem_blocked_list segs left).mp leftMember with ⟨leftStored, leftBlocked⟩
  rcases (mem_blocked_list segs right).mp rightMember with ⟨rightStored, rightBlocked⟩
  rcases stored_cases sl swl pid segs cut left leftStored with
    ⟨leftLogged, _⟩ | ⟨start, finish, _⟩
  · rcases stored_cases sl swl pid segs cut right rightStored with
      ⟨rightLogged, _⟩ | ⟨start, finish, _⟩
    · rcases log_waits_apart sl swl pid sorted left right leftLogged leftBlocked rightLogged
        rightBlocked with same | before | after
      · rw [same] at order
        exact absurd order (lt_irrefl _)
      · exact Timeline.apart_of_before Segment.stime Segment.etime before
      · exact Timeline.apart_of_after Segment.stime Segment.etime after
    · exact Timeline.apart_symm Segment.stime Segment.etime
        (Timeline.apart_of_point Segment.stime Segment.etime (start.trans finish.symm))
  · exact Timeline.apart_of_point Segment.stime Segment.etime (start.trans finish.symm)

/-- After `main` has cut any listed threads: each one's BLOCKED segments lie in
the trace, do not overlap, add up to at most its length, and have lengths that
do not wrap. -/
theorem blocked_time_bounded (pl pids : List Int64) (swl : List Switch) (sl : List Soft)
    (g : Globals) (pid : Int64) (sorted : TimeSorted swl) (listed : ∀ pid ∈ pids, pid ∈ pl)
    (run : cutThreads pl pids swl sl = .ok g) (member : pid ∈ pids) :
    ∃ segs, getSegments g pid = some segs ∧
      (∀ seg ∈ blockedList segs,
        traceStart swl ≤ seg.stime ∧ seg.stime ≤ seg.etime ∧ seg.etime ≤ traceEnd swl) ∧
      (blockedList segs).Pairwise (Timeline.Apart Segment.stime Segment.etime) ∧
      ((blockedList segs).map fun seg => seg.etime.toNat - seg.stime.toNat).sum ≤
        (traceEnd swl).toNat - (traceStart swl).toNat ∧
      ∀ seg ∈ blockedList segs,
        (seg.etime - seg.stime).toNat = seg.etime.toNat - seg.stime.toNat := by
  rcases cut_threads_spec listed run with ⟨nonempty, final, _⟩
  rcases final.cut pid (List.mem_reverse.mpr member) with ⟨segs, cut, found⟩
  have within := thread_blocked_within nonempty sorted cut
  have apart := thread_blocked_apart sorted cut
  refine ⟨segs, found, within, apart, ?_, ?_⟩
  · exact Timeline.apart_lengths_le Segment.stime Segment.etime UInt64.toNat Word.toNat_monotone
      (blockedList segs) (trace_window nonempty sorted) ((list_ordered segs).filter _) apart within
  · intro seg blocked
    exact Word.toNat_sub_of_order (within seg blocked).2.1

def exitingTrace : List Switch :=
  [switchTo (fun _ => "worker") 0 10 1 1 0,
    lifeEvent (fun _ => "worker") 1 1 25 2 1,
    switchTo (fun _ => "worker") 0 30 0 0 1,
    lifeEvent (fun _ => "worker") 3 0 40 1 0,
    switchTo (fun _ => "worker") 0 50 1 64 0]

theorem exiting_thread_bounded :
    ∃ g, cutThreads [1] [1] exitingTrace [] = .ok g ∧
      ∃ segs, getSegments g 1 = some segs ∧
        (∀ seg ∈ blockedList segs, traceStart exitingTrace ≤ seg.stime ∧
          seg.stime ≤ seg.etime ∧ seg.etime ≤ traceEnd exitingTrace) ∧
        (blockedList segs).Pairwise (Timeline.Apart Segment.stime Segment.etime) ∧
        ((blockedList segs).map fun seg => seg.etime.toNat - seg.stime.toNat).sum ≤
          (traceEnd exitingTrace).toNat - (traceStart exitingTrace).toNat ∧
        ∀ seg ∈ blockedList segs,
          (seg.etime - seg.stime).toNat = seg.etime.toNat - seg.stime.toNat := by
  obtain ⟨g, run⟩ : ∃ g, cutThreads [1] [1] exitingTrace [] = .ok g := ⟨_, rfl⟩
  exact ⟨g, run, blocked_time_bounded [1] [1] exitingTrace [] g 1 (by decide)
    (fun _ listed => listed) run (by decide)⟩

end WPerf.Analyzer
