import WPerf.Analyzer.Tiling

/-!
# The first and the last stretch of a thread

`PrevStateMap.Init` stores a thread's beginning and overwrites it with its
end, and `BreakIntoSegments` reads the tracked state again from that table
after its loop. So the stretch before the first switch is never recorded, and
the stretch after the last handled event only when it is empty.
-/

namespace WPerf.Analyzer

open WPerf.Library

set_option autoImplicit false

def finalState (swl : List Switch) (pid : Int64) : PrevState :=
  tracked pid ⟨initialTime pid swl, .unset⟩ swl

/-- Whenever `ps` lies before the end of the trace, some segment runs from it
to that end in its state. -/
def LastStretchKept (swl : List Switch) (ps : PrevState) (segs : Segments) : Prop :=
  ps.timestamp < traceEnd swl →
    ∃ seg ∈ segs.list, seg.stime = ps.timestamp ∧ seg.etime = traceEnd swl ∧
      seg.state = ps.state ∧ (ps.state = .blocked → seg.waitFor = -unknown)

instance (swl : List Switch) (ps : PrevState) (segs : Segments) :
    Decidable (LastStretchKept swl ps segs) :=
  inferInstanceAs (Decidable (_ → ∃ seg ∈ segs.list, _))

theorem pieces_end (sm : SoftMap) (pid : Int64) (pt : UInt64) (sw : Switch) (seg : Segment)
    (member : seg ∈ pieces sm pid pt sw) : seg.etime ≤ sw.time := by
  rcases pieces_cases sm pid pt sw with ⟨state, waitFor, single⟩ | ⟨_, sf, _, starts, ends, three⟩
  · rw [single, List.mem_singleton] at member
    rw [member]
  · rw [three] at member
    simp only [List.mem_cons, List.not_mem_nil, or_false] at member
    rcases member with front | middle | back
    · rw [front]
      exact starts.le
    · rw [middle]
      exact ends.le
    · rw [back]

theorem log_end (sm : SoftMap) (pid : Int64) (pt : UInt64) (handled : List Switch)
    (seg : Segment) (member : seg ∈ segmentLog sm pid pt handled) :
    ∃ sw ∈ handled, seg.etime ≤ sw.time := by
  induction handled generalizing pt with
  | nil => simp [segmentLog] at member
  | cons sw rest ih =>
      rcases List.mem_append.mp member with own | later
      · exact ⟨sw, List.mem_cons_self, pieces_end sm pid pt sw seg own⟩
      · rcases ih sw.time later with ⟨other, inRest, bound⟩
        exact ⟨other, List.mem_cons_of_mem sw inRest, bound⟩

theorem last_is_latest {swl : List Switch} (sorted : TimeSorted swl) (last : Switch)
    (isLast : swl.getLast? = some last) (sw : Switch) (member : sw ∈ swl) :
    sw.time ≤ last.time := by
  have bound := (time_within_trace sorted sw member).2
  unfold traceEnd at bound
  rw [isLast] at bound
  exact bound

/-- The last stretch is kept exactly when the last handled event already has
the time of the end of the trace, so that there is no stretch to keep. -/
theorem last_stretch_kept_iff (pl : List Int64) (swl : List Switch) (sl : List Soft)
    (pid : Int64) (sorted : TimeSorted swl) (listed : pid ∈ pl)
    (switched : ∃ sw ∈ swl, sw.Switches pid) (alive : ¬Exits pid swl) :
    ∃ segs last, segmentsAfter pl swl sl pid = .ok segs ∧
      (handledEvents pid swl).getLast? = some last ∧
      (LastStretchKept swl (finalState swl pid) segs ↔ last.time = traceEnd swl) := by
  obtain ⟨sw, member, switches⟩ := switched
  obtain ⟨last, isLast⟩ : ∃ last, (handledEvents pid swl).getLast? = some last :=
    Option.isSome_iff_exists.mp
      (List.getLast?_isSome.mpr (handled_nonempty pid swl sw member switches))
  have final : finalState swl pid = ⟨last.time, stateLeftBy pid last⟩ := by
    unfold handledEvents at isLast
    rw [finalState, tracked_by_last, isLast]
  have cut := thread_segments_alive sl swl pid alive
  have call := segments_after_eq pl swl sl pid (List.ne_nil_of_mem member) listed
  refine ⟨_, last, call.trans cut, isLast, ?_⟩
  rw [final]
  constructor
  · intro kept
    by_contra early
    have inTrace := (handled_within_trace pid swl sorted last (List.mem_of_getLast? isLast)).2
    obtain ⟨seg, stored, start, finish, _⟩ := kept (lt_of_le_of_ne inTrace early)
    rcases stored_cases sl swl pid _ cut seg stored with ⟨logged, _⟩ | ⟨atInitial, _⟩
    · obtain ⟨other, handled, bound⟩ := log_end _ pid _ _ seg logged
      have latest := last_is_latest (handled_sorted pid swl sorted) last isLast other handled
      rw [finish] at bound
      exact early (le_antisymm inTrace (bound.trans latest))
    · rw [start, initial_time_alive pid swl alive] at atInitial
      exact early atInitial
  · intro atEnd before
    exact absurd atEnd (ne_of_lt before)

theorem awake_thread_has_no_last_stretch :
    ∃ segs last, segmentsAfter [1] preemptedTrace [] 1 = .ok segs ∧
      (handledEvents 1 preemptedTrace).getLast? = some last ∧
      (LastStretchKept preemptedTrace (finalState preemptedTrace 1) segs ↔
        last.time = traceEnd preemptedTrace) :=
  last_stretch_kept_iff [1] preemptedTrace [] 1 (by decide) (by decide) (by decide) (by decide)

def neverWokenTrace : List Switch :=
  [switchTo (fun _ => "worker") 0 10 1 1 0, switchTo (fun _ => "worker") 0 20 0 0 2]

theorem never_woken_stretch_lost :
    TimeSorted neverWokenTrace ∧ (∃ sw ∈ neverWokenTrace, sw.Switches 1) ∧
      ¬Exits 1 neverWokenTrace ∧
      ∃ segs, segmentsAfter [1] neverWokenTrace [] 1 = .ok segs ∧
        ¬LastStretchKept neverWokenTrace (finalState neverWokenTrace 1) segs :=
  ⟨by decide, by decide, by decide,
    Segments.new.storeAll [⟨1, .running, 20, 10, 0⟩, ⟨1, .blocked, 20, 20, -13⟩], rfl, by decide⟩

/-- Where a thread's time begins: at a wake_up_new_task event if one is
recorded, and otherwise at the first event of the trace. -/
def BeginsAt (swl : List Switch) (pid : Int64) (b : UInt64) : Prop :=
  (∃ v ∈ swl, v.type = 2 ∧ v.nextPid = pid ∧ v.time = b) ∨
    (¬∃ v ∈ swl, v.type = 2 ∧ v.nextPid = pid) ∧ traceStart swl = b

def FirstStretchKept (segs : Segments) (b f : UInt64) : Prop :=
  ∃ seg, segs.list.head? = some seg ∧ seg.stime = b ∧ seg.etime = f

instance (swl : List Switch) (pid : Int64) (b : UInt64) : Decidable (BeginsAt swl pid b) :=
  inferInstanceAs (Decidable ((∃ v ∈ swl, _) ∨ (¬∃ v ∈ swl, _) ∧ _))

theorem pieces_start_without_softirqs (pid : Int64) (pt : UInt64) (sw : Switch) (seg : Segment)
    (member : seg ∈ pieces (softMapInit [] ∅) pid pt sw) : seg.stime = pt := by
  rcases pieces_cases (softMapInit [] ∅) pid pt sw with
    ⟨state, waitFor, single⟩ | ⟨_, sf, ceiling, _⟩
  · rw [single, List.mem_singleton] at member
    rw [member]
  · exact absurd (ceiling_soft_spec [] sw.cpu pt sf ceiling).1 List.not_mem_nil

theorem log_start_without_softirqs (pid : Int64) (pt : UInt64) (handled : List Switch)
    (seg : Segment) (member : seg ∈ segmentLog (softMapInit [] ∅) pid pt handled) :
    seg.stime = pt ∨ ∃ sw ∈ handled, seg.stime = sw.time := by
  induction handled generalizing pt with
  | nil => simp [segmentLog] at member
  | cons sw rest ih =>
      rcases List.mem_append.mp member with own | later
      · exact Or.inl (pieces_start_without_softirqs pid pt sw seg own)
      · rcases ih sw.time later with atHead | ⟨other, inRest, start⟩
        · exact Or.inr ⟨sw, List.mem_cons_self, atHead⟩
        · exact Or.inr ⟨other, List.mem_cons_of_mem sw inRest, start⟩

/-- No stored start lies before the first switch, except at an exit time. -/
theorem log_start_late (swl : List Switch) (pid : Int64) (first : Switch)
    (sorted : TimeSorted swl) (head : (handledEvents pid swl).head? = some first)
    (seg : Segment) (member : seg ∈ threadLog [] swl pid) :
    seg.stime = initialTime pid swl ∨ first.time ≤ seg.stime := by
  rcases log_start_without_softirqs pid _ _ seg member with initial | ⟨sw, handled, start⟩
  · exact Or.inl initial
  · refine Or.inr ?_
    rw [start]
    have handledSorted := handled_sorted pid swl sorted
    rcases List.head?_eq_some_iff.mp head with ⟨rest, split⟩
    rw [split] at handled handledSorted
    rcases List.mem_cons.mp handled with same | later
    · rw [same]
    · exact (List.pairwise_cons.mp handledSorted).1 sw later

theorem cut_of_active (sl : List Soft) (swl : List Switch) (pid : Int64)
    (active : handledEvents pid swl ≠ []) : ∃ segs, threadSegments sl swl pid = .ok segs := by
  unfold threadSegments
  cases handled : handledEvents pid swl with
  | nil => exact absurd handled active
  | cons first rest => cases exitTime pid swl <;> exact ⟨_, rfl⟩

/-- The stretch from the thread's beginning to its first switch is never the
first segment. -/
theorem first_stretch_never_kept (pl : List Int64) (swl : List Switch) (pid : Int64)
    (first : Switch) (sorted : TimeSorted swl) (listed : pid ∈ pl)
    (switched : (swl.find? fun sw => sw.Switches pid) = some first) :
    ∃ segs, segmentsAfter pl swl [] pid = .ok segs ∧
      ∀ b, BeginsAt swl pid b → b < first.time → ¬FirstStretchKept segs b first.time := by
  have member : first ∈ swl := List.mem_of_find?_eq_some switched
  have head : (handledEvents pid swl).head? = some first :=
    (handled_from_head pid .unset (by decide) swl).trans switched
  have active : handledEvents pid swl ≠ [] := List.ne_nil_of_mem (List.mem_of_head? head)
  obtain ⟨segs, cut⟩ := cut_of_active [] swl pid active
  refine ⟨segs, (segments_after_eq pl swl [] pid (List.ne_nil_of_mem member) listed).trans cut, ?_⟩
  intro b _ before ⟨seg, smallest, start, finish⟩
  rw [← start] at before
  rcases stored_cases [] swl pid segs cut seg (List.mem_of_head? smallest) with
    ⟨logged, apart⟩ | ⟨atInitial, point, _⟩
  · rcases log_start_late swl pid first sorted head seg logged with initial | late
    · exact apart initial
    · exact absurd late (not_le.mpr before)
  · rw [← finish, point, atInitial] at before
    exact absurd before (lt_irrefl _)

def newbornTrace : List Switch :=
  [lifeEvent (fun _ => "worker") 2 0 10 9 1, switchTo (fun _ => "worker") 0 20 0 0 1,
    switchTo (fun _ => "worker") 1 30 5 0 6]

theorem newborn_first_stretch :
    ∃ segs, segmentsAfter [1] newbornTrace [] 1 = .ok segs ∧
      ∀ b, BeginsAt newbornTrace 1 b → b < 20 → ¬FirstStretchKept segs b 20 :=
  first_stretch_never_kept [1] newbornTrace 1 (switchTo (fun _ => "worker") 0 20 0 0 1)
    (by decide) (by decide) (by decide)

theorem newborn_first_stretch_lost :
    TimeSorted newbornTrace ∧ BeginsAt newbornTrace 1 10 ∧
      (newbornTrace.find? fun sw => sw.Switches 1) =
        some (switchTo (fun _ => "worker") 0 20 0 0 1) ∧
      ∃ segs, segmentsAfter [1] newbornTrace [] 1 = .ok segs ∧ ¬FirstStretchKept segs 10 20 := by
  refine ⟨by decide, by decide, by decide,
    Segments.new.storeAll [⟨1, .runnable, 30, 20, 0⟩, ⟨1, .blocked, 30, 30, -13⟩], rfl, ?_⟩
  intro ⟨seg, smallest, start, _⟩
  have only : some (⟨1, .blocked, 30, 30, -13⟩ : Segment) = some seg := smallest
  rw [← Option.some.inj only] at start
  exact absurd start (by decide)

end WPerf.Analyzer
