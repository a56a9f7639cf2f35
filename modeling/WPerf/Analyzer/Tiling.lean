import WPerf.Analyzer.Segmentation

/-!
# A thread's time is cut without gap or overlap

Between two handled events the recorded pieces cover the time from one to the
other, as long as the softirq that splits them lies inside. The first event's
piece starts at the initial timestamp, which is the end of the trace, and runs
backwards or not at all; the placeholder at the end is a point. Neither can
replace a positive piece, so the positive segments of the map tile the time
from the first switch to the last handled event.
-/

namespace WPerf.Analyzer

open WPerf.Library

set_option autoImplicit false

/-- For each switch-out of the thread and the handled event before it, every
softirq that ends in between on that CPU also starts in between. -/
def SoftirqsInside (sl : List Soft) (swl : List Switch) (pid : Int64) : Prop :=
  (handledEvents pid swl).IsChain fun previous sw =>
    sw.SwitchesOut pid → ∀ r ∈ sl, r.cpu = sw.cpu →
      previous.time ≤ r.etime → r.etime < sw.time → previous.time ≤ r.stime ∧ r.stime ≤ r.etime

instance (sl : List Soft) (swl : List Switch) (pid : Int64) :
    Decidable (SoftirqsInside sl swl pid) :=
  inferInstanceAs (Decidable (List.IsChain _ _))

theorem pieces_cover (sl : List Soft) (pid : Int64) (pt : UInt64) (sw : Switch)
    (order : pt ≤ sw.time)
    (inside : sw.SwitchesOut pid → ∀ r ∈ sl, r.cpu = sw.cpu →
      pt ≤ r.etime → r.etime < sw.time → pt ≤ r.stime ∧ r.stime ≤ r.etime) :
    Timeline.Covers Segment.stime Segment.etime pt
      (pieces (softMapInit sl ∅) pid pt sw) sw.time := by
  rcases pieces_cases (softMapInit sl ∅) pid pt sw with
    ⟨state, waitFor, single⟩ | ⟨out, sf, ceiling, _, ends, three⟩
  · rw [single]
    exact ⟨rfl, order, rfl⟩
  · rcases ceiling_soft_spec sl sw.cpu pt sf ceiling with ⟨listed, onCpu, above⟩
    rcases inside out sf listed onCpu above ends with ⟨low, forward⟩
    rw [three]
    exact ⟨rfl, low, rfl, forward, rfl, ends.le, rfl⟩

/-- An event at or before the previous time records one piece that is not
positive: the softirq that the lookup finds ends too late to split it. -/
theorem pieces_backwards (sl : List Soft) (pid : Int64) (pt : UInt64) (sw : Switch)
    (late : sw.time ≤ pt) (seg : Segment)
    (member : seg ∈ pieces (softMapInit sl ∅) pid pt sw) :
    seg.stime = pt ∧ seg.etime = sw.time := by
  rcases pieces_cases (softMapInit sl ∅) pid pt sw with
    ⟨state, waitFor, single⟩ | ⟨_, sf, ceiling, _, ends, _⟩
  · rw [single, List.mem_singleton] at member
    rw [member]
    exact ⟨rfl, rfl⟩
  · have above := (ceiling_soft_spec sl sw.cpu pt sf ceiling).2.2
    exact absurd (above.trans_lt ends) (not_lt.mpr late)

theorem log_covers (sl : List Soft) (pid : Int64) (previous : Switch) (rest : List Switch)
    (sorted : TimeSorted (previous :: rest))
    (inside : (previous :: rest).IsChain fun previous sw =>
      sw.SwitchesOut pid → ∀ r ∈ sl, r.cpu = sw.cpu →
        previous.time ≤ r.etime → r.etime < sw.time →
          previous.time ≤ r.stime ∧ r.stime ≤ r.etime) :
    Timeline.Covers Segment.stime Segment.etime previous.time
      (segmentLog (softMapInit sl ∅) pid previous.time rest)
      ((previous :: rest).getLast (List.cons_ne_nil previous rest)).time := by
  induction rest generalizing previous with
  | nil => rfl
  | cons sw rest ih =>
      rcases List.pairwise_cons.mp sorted with ⟨first, restSorted⟩
      rcases List.isChain_cons_cons.mp inside with ⟨head, tail⟩
      rw [List.getLast_cons (List.cons_ne_nil sw rest)]
      unfold segmentLog
      rw [Timeline.covers_append]
      exact ⟨sw.time, pieces_cover sl pid previous.time sw (first sw List.mem_cons_self) head,
        ih sw restSorted tail⟩

theorem handled_sorted (pid : Int64) (swl : List Switch) (sorted : TimeSorted swl) :
    TimeSorted (handledEvents pid swl) :=
  sorted.sublist (handled_from_sublist pid .unset swl)

theorem handled_within_trace (pid : Int64) (swl : List Switch) (sorted : TimeSorted swl)
    (sw : Switch) (member : sw ∈ handledEvents pid swl) :
    traceStart swl ≤ sw.time ∧ sw.time ≤ traceEnd swl :=
  time_within_trace sorted sw ((handled_from_sublist pid .unset swl).subset member)

theorem alive_positive_segments (sl : List Soft) (swl : List Switch) (pid : Int64)
    (first : Switch) (rest : List Switch) (sorted : TimeSorted swl) (alive : ¬Exits pid swl)
    (inside : SoftirqsInside sl swl pid) (handled : handledEvents pid swl = first :: rest) :
    Timeline.positive Segment.stime Segment.etime
        (Segments.new.storeAll (threadLog sl swl pid ++ [placeholder swl pid])).list =
      Timeline.positive Segment.stime Segment.etime
        (segmentLog (softMapInit sl ∅) pid first.time rest) := by
  have handledSorted := handled_sorted pid swl sorted
  have insideList := inside
  unfold SoftirqsInside at insideList
  rw [handled] at handledSorted insideList
  have covers := log_covers sl pid first rest handledSorted insideList
  have firstInTrace := handled_within_trace pid swl sorted first
    (by rw [handled]; exact List.mem_cons_self)
  have lastInTrace := handled_within_trace pid swl sorted
    ((first :: rest).getLast (List.cons_ne_nil first rest))
    (by rw [handled]; exact List.getLast_mem _)
  have split := thread_log_cons sl swl pid first rest handled
  rw [initial_time_alive pid swl alive] at split
  unfold Segments.list
  rw [store_all_tm, split]
  apply Timeline.covers_recorded Segment.stime Segment.etime covers
  · intro seg member
    rcases pieces_backwards sl pid (traceEnd swl) first firstInTrace.2 seg member with
      ⟨start, finish⟩
    rw [start, finish]
    exact firstInTrace.2
  · intro seg member
    rw [List.mem_singleton.mp member]
    exact le_refl _
  · intro seg member
    rw [List.mem_singleton.mp member]
    exact lastInTrace.2

/-- The segments that are more than a point tile the time from the thread's
first switch_to to its last handled event. -/
theorem thread_time_tiled (pl : List Int64) (swl : List Switch) (sl : List Soft) (pid : Int64)
    (first : Switch) (sorted : TimeSorted swl) (listed : pid ∈ pl)
    (switched : (swl.find? fun sw => sw.Switches pid) = some first) (alive : ¬Exits pid swl)
    (inside : SoftirqsInside sl swl pid) :
    ∃ segs last, segmentsAfter pl swl sl pid = .ok segs ∧
      (handledEvents pid swl).getLast? = some last ∧
      Timeline.Tiles Segment.stime Segment.etime first.time
        (Timeline.positive Segment.stime Segment.etime segs.list) last.time := by
  have nonempty : swl ≠ [] := by
    intro empty
    rw [empty] at switched
    simp at switched
  have head : (handledEvents pid swl).head? = some first :=
    (handled_from_head pid .unset (by decide) swl).trans switched
  obtain ⟨rest, handled⟩ : ∃ rest, handledEvents pid swl = first :: rest :=
    List.head?_eq_some_iff.mp head
  have handledSorted := handled_sorted pid swl sorted
  have insideList := inside
  unfold SoftirqsInside at insideList
  rw [handled] at handledSorted insideList
  refine ⟨Segments.new.storeAll (threadLog sl swl pid ++ [placeholder swl pid]),
    (first :: rest).getLast (List.cons_ne_nil first rest), ?_, ?_, ?_⟩
  · exact (segments_after_eq pl swl sl pid nonempty listed).trans
      (thread_segments_alive sl swl pid alive)
  · rw [handled]
    exact List.getLast?_eq_some_getLast (List.cons_ne_nil first rest)
  · rw [alive_positive_segments sl swl pid first rest sorted alive inside handled]
    exact Timeline.covers_positive_tiles Segment.stime Segment.etime
      (log_covers sl pid first rest handledSorted insideList)

def preemptedTrace : List Switch :=
  [switchTo (fun _ => "worker") 0 10 0 0 1,
    switchTo (fun _ => "worker") 0 30 1 1 0,
    lifeEvent (fun _ => "worker") 1 0 40 2 1,
    switchTo (fun _ => "worker") 0 50 0 0 1]

theorem preempted_thread_tiled :
    ∃ segs last, segmentsAfter [1] preemptedTrace [⟨0, 15, 20⟩] 1 = .ok segs ∧
      (handledEvents 1 preemptedTrace).getLast? = some last ∧
      Timeline.Tiles Segment.stime Segment.etime 10
        (Timeline.positive Segment.stime Segment.etime segs.list) last.time :=
  thread_time_tiled [1] preemptedTrace [⟨0, 15, 20⟩] 1
    (switchTo (fun _ => "worker") 0 10 0 0 1) (by decide) (by decide) (by decide) (by decide)
    (by decide)

end WPerf.Analyzer
