import WPerf.Analyzer.BlockedTime

/-!
# Slices of a thread

A slice ends at a switch-out and starts at the handled event before it. What
comes after the switch-out is a trace of its own, whose slices are the later
ones. The log of a thread is then the pieces before a slice, the slice's own
and those of the later slices, and what survives of it in the final map is
said at the end.
-/

namespace WPerf.Analyzer

open WPerf.Library

set_option autoImplicit false

/-- A thread is switched out at `out`, and the event handled before is `into`. -/
structure Slice (pid : Int64) (swl before : List Switch) (into out : Switch)
    (after : List Switch) : Prop where
  split : swl = before ++ out :: after
  leaves : out.SwitchesOut pid
  previous : (handledEvents pid before).getLast? = some into

theorem handled_from_append (pid : Int64) (ps : PrevState) (front back : List Switch) :
    handledFrom pid ps.state (front ++ back) =
      handledFrom pid ps.state front ++ handledFrom pid (tracked pid ps front).state back := by
  induction front generalizing ps with
  | nil => rfl
  | cons sw rest ih =>
      have unfolded : tracked pid ps (sw :: rest) = tracked pid (track pid ps sw) rest := rfl
      rw [unfolded, List.cons_append]
      by_cases handled : Handles pid ps.state sw
      · have tail := ih ⟨sw.time, stateLeftBy pid sw⟩
        simp only [handledFrom, track, if_pos handled, List.cons_append]
        rw [tail]
      · simp only [handledFrom, track, if_neg handled]
        exact ih ps

theorem handled_from_split (pid : Int64) (state : State) (swl front back : List Switch)
    (sw : Switch) (handled : handledFrom pid state swl = front ++ sw :: back) :
    ∃ before after, swl = before ++ sw :: after ∧ handledFrom pid state before = front := by
  induction swl generalizing state front with
  | nil =>
      have empty : front ++ sw :: back = [] := handled.symm
      simp at empty
  | cons head rest ih =>
      by_cases own : Handles pid state head
      · simp only [handledFrom, if_pos own] at handled
        cases front with
        | nil =>
            obtain ⟨rfl, _⟩ := List.cons.inj handled
            exact ⟨[], rest, rfl, rfl⟩
        | cons first others =>
            obtain ⟨rfl, tail⟩ := List.cons.inj handled
            obtain ⟨before, after, split, same⟩ := ih _ others tail
            refine ⟨head :: before, after, by rw [split]; rfl, ?_⟩
            simp only [handledFrom, if_pos own, same]
      · simp only [handledFrom, if_neg own] at handled
        obtain ⟨before, after, split, same⟩ := ih state front handled
        refine ⟨head :: before, after, by rw [split]; rfl, ?_⟩
        simp only [handledFrom, if_neg own, same]

theorem handled_resumed (pid : Int64) (out : Switch) (after : List Switch)
    (leaves : out.SwitchesOut pid) :
    handledEvents pid (out :: after) = out :: handledFrom pid (stateLeftBy pid out) after := by
  have handled : Handles pid .unset out := Or.inl ⟨leaves.1, Or.inl leaves.2⟩
  simp only [handledEvents, handledFrom, if_pos handled]

theorem Slice.handled {pid : Int64} {swl before after : List Switch} {into out : Switch}
    (slice : Slice pid swl before into out after) :
    ∃ front, handledEvents pid before = front ++ [into] ∧
      handledEvents pid swl =
        front ++ into :: out :: handledFrom pid (stateLeftBy pid out) after := by
  obtain ⟨front, ends⟩ := List.getLast?_eq_some_iff.mp slice.previous
  have whole := handled_from_append pid ⟨0, .unset⟩ before (out :: after)
  have switches : Handles pid (tracked pid ⟨0, .unset⟩ before).state out :=
    Or.inl ⟨slice.leaves.1, Or.inl slice.leaves.2⟩
  refine ⟨front, ends, ?_⟩
  unfold handledEvents at ends ⊢
  rw [slice.split, whole, ends, handledFrom, if_pos switches]
  simp

theorem slice_of_handled (pid : Int64) (swl front back : List Switch) (into out : Switch)
    (leaves : out.SwitchesOut pid)
    (handled : handledEvents pid swl = front ++ into :: out :: back) :
    ∃ before after, Slice pid swl before into out after := by
  have shifted : handledEvents pid swl = (front ++ [into]) ++ out :: back := by
    rw [handled]
    simp
  obtain ⟨before, after, split, same⟩ := handled_from_split pid .unset swl _ back out shifted
  refine ⟨before, after, split, leaves, ?_⟩
  unfold handledEvents
  rw [same, List.getLast?_concat]

/-- A slice runs forwards, and nothing is handled later before its start. -/
theorem Slice.order {pid : Int64} {swl before after : List Switch} {into out : Switch}
    (slice : Slice pid swl before into out after) (sorted : TimeSorted swl) :
    into.time ≤ out.time ∧ (∀ sw ∈ handledEvents pid before, sw.time ≤ into.time) ∧
      TimeSorted (out :: after) := by
  rw [slice.split] at sorted
  obtain ⟨sortedBefore, sortedRest, across⟩ := List.pairwise_append.mp sorted
  have inBefore : into ∈ before :=
    (handled_from_sublist pid .unset before).subset (List.mem_of_getLast? slice.previous)
  exact ⟨across into inBefore out List.mem_cons_self,
    last_is_latest (handled_sorted pid before sortedBefore) into slice.previous, sortedRest⟩

section Log

variable (sm : SoftMap) (pid : Int64)

theorem segment_log_split (front : List Switch) (into out : Switch) (back : List Switch)
    (first : Switch) (rest : List Switch) (split : first :: rest = front ++ into :: out :: back) :
    ∃ earlier, segmentLog sm pid first.time rest =
        earlier ++ pieces sm pid into.time out ++ segmentLog sm pid out.time back ∧
      ∀ seg ∈ earlier, ∃ sw ∈ front ++ [into], seg.etime ≤ sw.time := by
  induction front generalizing first rest with
  | nil =>
      obtain ⟨rfl, rfl⟩ := List.cons.inj split
      exact ⟨[], rfl, fun seg absent => absurd absent List.not_mem_nil⟩
  | cons head tail ih =>
      obtain ⟨rfl, rfl⟩ := List.cons.inj split
      obtain ⟨second, others, next⟩ : ∃ second others, tail ++ into :: out :: back =
          second :: others := List.exists_cons_of_ne_nil (by simp)
      obtain ⟨earlier, run, ends⟩ := ih second others next.symm
      have secondBefore : second ∈ tail ++ [into] := by
        cases tail with
        | nil =>
            rw [← (List.cons.inj next).1]
            exact List.mem_singleton_self into
        | cons other tail =>
            rw [← (List.cons.inj next).1]
            exact List.mem_cons_self
      refine ⟨pieces sm pid first.time second ++ earlier, ?_, ?_⟩
      · change segmentLog sm pid first.time (tail ++ into :: out :: back) = _
        rw [next, segmentLog, run]
        simp
      · intro seg member
        rcases List.mem_append.mp member with own | later
        · exact ⟨second, List.mem_cons_of_mem first secondBefore,
            pieces_end sm pid first.time second seg own⟩
        · obtain ⟨sw, inTail, bound⟩ := ends seg later
          exact ⟨sw, List.mem_cons_of_mem first inTail, bound⟩

theorem mem_segment_log (seg : Segment) (first : Switch) (rest : List Switch)
    (member : seg ∈ segmentLog sm pid first.time rest) :
    ∃ front into out back, first :: rest = front ++ into :: out :: back ∧
      seg ∈ pieces sm pid into.time out := by
  induction rest generalizing first with
  | nil => exact absurd member List.not_mem_nil
  | cons sw rest ih =>
      rcases List.mem_append.mp member with own | later
      · exact ⟨[], first, sw, rest, rfl, own⟩
      · obtain ⟨front, into, out, back, split, found⟩ := ih sw later
        exact ⟨first :: front, into, out, back, by rw [split]; rfl, found⟩

end Log

theorem Slice.log {pid : Int64} {swl before after : List Switch} {into out : Switch}
    (slice : Slice pid swl before into out after) (sorted : TimeSorted swl) (sl : List Soft) :
    ∃ front, threadLog sl swl pid =
        front ++ pieces (softMapInit sl ∅) pid into.time out ++
          segmentLog (softMapInit sl ∅) pid out.time
            (handledFrom pid (stateLeftBy pid out) after) ∧
      ∀ seg ∈ front, seg.etime ≤ into.time := by
  obtain ⟨front, handledBefore, handled⟩ := slice.handled
  obtain ⟨_, latest, _⟩ := slice.order sorted
  rw [handledBefore] at latest
  obtain ⟨first, rest, atHead⟩ : ∃ first rest, front ++ into :: out ::
      handledFrom pid (stateLeftBy pid out) after = first :: rest :=
    List.exists_cons_of_ne_nil (by simp)
  obtain ⟨earlier, run, ends⟩ :=
    segment_log_split (softMapInit sl ∅) pid front into out _ first rest atHead.symm
  have firstBefore : first ∈ front ++ [into] := by
    cases front with
    | nil =>
        rw [← (List.cons.inj atHead).1]
        exact List.mem_singleton_self into
    | cons head tail =>
        rw [← (List.cons.inj atHead).1]
        exact List.mem_cons_self
  refine ⟨pieces (softMapInit sl ∅) pid (initialTime pid swl) first ++ earlier, ?_, ?_⟩
  · rw [thread_log_cons sl swl pid first rest (handled.trans atHead), run]
    simp
  · intro seg member
    rcases List.mem_append.mp member with own | later
    · exact (pieces_end _ pid _ first seg own).trans (latest first firstBefore)
    · obtain ⟨sw, known, bound⟩ := ends seg later
      exact bound.trans (latest sw known)

theorem mem_list_iff (segs : Segments) (seg : Segment) :
    seg ∈ segs.list ↔ (seg.stime, seg) ∈ segs.tm.entries := by
  constructor
  · intro member
    obtain ⟨entry, stored, value⟩ := List.mem_map.mp member
    have key := segs.keyed entry stored
    rw [← value, key]
    exact stored
  · exact fun stored => List.mem_map.mpr ⟨_, stored, rfl⟩

/-- What `BreakIntoSegments` leaves of the log before the end of the trace: all
the map held after the loop but the segment under the exit time, which is cut
down to a point. -/
theorem long_stored_iff (sl : List Soft) (swl : List Switch) (pid : Int64) (segs : Segments)
    (cut : threadSegments sl swl pid = .ok segs) (seg : Segment)
    (long : seg.stime < seg.etime) (early : seg.stime < traceEnd swl) :
    seg ∈ segs.list ↔
      seg ∈ (Segments.new.storeAll (threadLog sl swl pid)).list ∧
        exitTime pid swl ≠ some seg.stime := by
  rw [mem_list_iff, mem_list_iff]
  cases exit : exitTime pid swl with
  | none =>
      have alive := (exit_time_none_iff pid swl).mp exit
      rw [thread_segments_alive sl swl pid alive] at cut
      rw [← Except.ok.inj cut, store_all_append]
      have other : seg.stime ≠ traceEnd swl := ne_of_lt early
      constructor
      · intro member
        rcases (OrderedMap.mem_put _ _ _ _).mp member with last | ⟨old, _⟩
        · exact absurd (congrArg Prod.fst last) other
        · exact ⟨old, (Option.some_ne_none _).symm⟩
      · exact fun kept => (OrderedMap.mem_put _ _ _ _).mpr (Or.inr ⟨kept.1, other⟩)
  | some t =>
      unfold threadSegments at cut
      cases handled : handledEvents pid swl with
      | nil => simp [exit, handled] at cut
      | cons first rest =>
          simp only [exit, handled, Except.ok.injEq] at cut
          rw [← cut]
          refine (OrderedMap.mem_adjust t _ _ _).trans ?_
          constructor
          · rintro (⟨old, apart⟩ | ⟨old, _, moved⟩)
            · exact ⟨old, fun same => apart (Option.some.inj same).symm⟩
            · -- what is under the exit time is a point
              obtain ⟨start, value⟩ := Prod.mk.inj moved
              rw [start, value] at long
              exact absurd long (lt_irrefl t)
          · rintro ⟨old, apart⟩
            exact Or.inl ⟨old, fun same => apart (congrArg some same.symm)⟩

end WPerf.Analyzer
