import WPerf.Analyzer.Slices

/-!
# Softirq time inside a slice

A slice of a thread runs from its switch-in to its switch-out. The loop of
`BreakIntoSegments` looks up one softirq for it, the first on the CPU to end
at or after the switch-in, and takes that one out of the running time. A
second softirq of the slice stays RUNNING, and a record of no length, or one
that ends exactly at the switch-in, hides the first. What was recorded is lost
again when a later slice is cut by a softirq from before the slice's end, or
when the thread exits at an edge of the slice.
-/

namespace WPerf.Analyzer

open WPerf.Library

set_option autoImplicit false

/-- No record of the CPU ends sooner after `time`, and none of those filed
later has the same end. -/
def EndsFirst (sl : List Soft) (time : UInt64) (r : Soft) : Prop :=
  (∀ other ∈ sl, other.cpu = r.cpu → time ≤ other.etime → r.etime ≤ other.etime) ∧
    ∃ before after, sl = before ++ r :: after ∧
      ∀ other ∈ after, other.cpu = r.cpu → other.etime ≠ r.etime

def softsOn (cpu : Int64) (sl : List Soft) : List Soft := sl.filter fun r => r.cpu = cpu

theorem mem_softs_on (cpu : Int64) (sl : List Soft) (r : Soft) :
    r ∈ softsOn cpu sl ↔ r ∈ sl ∧ r.cpu = cpu := by
  simp [softsOn]

theorem softs_on_append (cpu : Int64) (front back : List Soft) :
    softsOn cpu (front ++ back) = softsOn cpu front ++ softsOn cpu back := by
  simp [softsOn]

theorem softs_on_cons (cpu : Int64) (r : Soft) (rest : List Soft) (same : r.cpu = cpu) :
    softsOn cpu (r :: rest) = r :: softsOn cpu rest := by
  simp [softsOn, same]

theorem softs_on_cons_other (cpu : Int64) (r : Soft) (rest : List Soft) (other : r.cpu ≠ cpu) :
    softsOn cpu (r :: rest) = softsOn cpu rest := by
  simp [softsOn, other]

theorem soft_map_init_lookup (sl : List Soft) (cpu : Int64) (sm : SoftMap) :
    ((softMapInit sl sm).lookup cpu).getD ∅ =
      Timeline.recordAll Soft.etime (softsOn cpu sl) ((sm.lookup cpu).getD ∅) := by
  induction sl generalizing sm with
  | nil => rfl
  | cons v rest ih =>
      have unfolded : softMapInit (v :: rest) sm = softMapInit rest (softMapPut sm v) := rfl
      rw [unfolded, ih]
      by_cases same : v.cpu = cpu
      · have stored : ((softMapPut sm v).lookup cpu).getD ∅ =
            ((sm.lookup cpu).getD ∅).put v.etime v := by
          rw [← same, softMapPut, Finmap.lookup_insert]
          cases sm.lookup v.cpu <;> rfl
        rw [stored, softs_on_cons cpu v rest same]
        rfl
      · have untouched : (softMapPut sm v).lookup cpu = sm.lookup cpu :=
          Finmap.lookup_insert_of_ne sm fun equal => same equal.symm
        rw [untouched, softs_on_cons_other cpu v rest same]

theorem ceiling_soft_eq (sm : SoftMap) (cpu : Int64) (time : UInt64) :
    getCeilingSoft sm cpu time = (((sm.lookup cpu).getD ∅).ceiling time).map Prod.snd := by
  unfold getCeilingSoft
  cases sm.lookup cpu <;> rfl

/-- What the lookup of a slice finds, said on the table as it was loaded. -/
theorem ceiling_soft_iff (sl : List Soft) (cpu : Int64) (time : UInt64) (r : Soft) :
    getCeilingSoft (softMapInit sl ∅) cpu time = some r ↔
      r.cpu = cpu ∧ time ≤ r.etime ∧ EndsFirst sl time r := by
  rw [ceiling_soft_eq, soft_map_init_lookup, Option.map_eq_some_iff]
  constructor
  · rintro ⟨entry, found, rfl⟩
    obtain ⟨member, above, least⟩ := (OrderedMap.ceiling_eq_some_iff _ _ _).mp found
    rcases (Timeline.mem_record_all Soft.etime _ ∅ entry).mp member with
      ⟨before, after, split, key, last⟩ | ⟨absent, _⟩
    · obtain ⟨left, right, whole, leftIs, rightIs⟩ := List.filter_eq_append_iff.mp split
      obtain ⟨skipped, rest, rightSplit, none, kept, restIs⟩ := List.filter_eq_cons_iff.mp rightIs
      have onCpu : entry.2.cpu = cpu := of_decide_eq_true kept
      rw [key] at above least last
      refine ⟨onCpu, above, ?_, left ++ skipped, rest, ?_, ?_⟩
      · intro other listed sameCpu late
        have own : other ∈ softsOn cpu sl :=
          (mem_softs_on cpu sl other).mpr ⟨listed, sameCpu.trans onCpu⟩
        obtain ⟨stored, inTable⟩ := Timeline.record_all_key Soft.etime _ ∅ other own
        exact least _ inTable late
      · rw [whole, rightSplit, List.append_assoc]
      · intro other later sameCpu
        apply last other
        rw [← restIs]
        exact (mem_softs_on cpu rest other).mpr ⟨later, sameCpu.trans onCpu⟩
    · exact absurd absent List.not_mem_nil
  · rintro ⟨onCpu, above, least, before, after, split, last⟩
    refine ⟨(r.etime, r), (OrderedMap.ceiling_eq_some_iff _ _ _).mpr ⟨?_, above, ?_⟩, rfl⟩
    · apply (Timeline.mem_record_all Soft.etime _ ∅ _).mpr
      refine Or.inl ⟨softsOn cpu before, softsOn cpu after, ?_, rfl, ?_⟩
      · rw [split, softs_on_append, softs_on_cons cpu r after onCpu]
      · intro other later
        obtain ⟨listed, sameCpu⟩ := (mem_softs_on cpu after other).mp later
        exact last other listed (sameCpu.trans onCpu.symm)
    · intro entry member late
      have value : entry.2 ∈ (Timeline.recordAll Soft.etime (softsOn cpu sl) ∅).values :=
        List.mem_map_of_mem member
      have key := Timeline.recorded_under_start Soft.etime _ entry member
      obtain ⟨listed, sameCpu⟩ :=
        (mem_softs_on cpu sl entry.2).mp (Timeline.recorded_mem Soft.etime _ entry.2 value)
      rw [key] at late ⊢
      exact least entry.2 listed (sameCpu.trans onCpu.symm) late

structure Soft.Cuts (sl : List Soft) (cpu : Int64) (p q : UInt64) (r : Soft) : Prop where
  onCpu : r.cpu = cpu
  reached : p ≤ r.etime
  starts : r.stime < q
  ends : r.etime < q
  first : EndsFirst sl p r

theorem cuts_iff (sl : List Soft) (cpu : Int64) (p q : UInt64) (r : Soft) :
    r.Cuts sl cpu p q ↔
      getCeilingSoft (softMapInit sl ∅) cpu p = some r ∧ r.stime < q ∧ r.etime < q := by
  rw [ceiling_soft_iff]
  constructor
  · rintro ⟨onCpu, reached, starts, ends, first⟩
    exact ⟨⟨onCpu, reached, first⟩, starts, ends⟩
  · rintro ⟨⟨onCpu, reached, first⟩, starts, ends⟩
    exact ⟨onCpu, reached, starts, ends, first⟩

def Soft.LiesIn (p q : UInt64) (r : Soft) : Prop := r.stime < r.etime ∧ p ≤ r.stime ∧ r.etime < q

def Segments.between (segs : Segments) (p q : UInt64) : List Segment :=
  Timeline.between Segment.stime Segment.etime p q segs.list

/-- The slice is RUNNING but for the softirqs of its CPU, which are RUNNABLE
in it one by one. No other segment has a part of it. -/
structure SoftirqsTakenOut (sl : List Soft) (cpu : Int64) (p q : UInt64) (segs : Segments) :
    Prop where
  tiled : Timeline.Tiles Segment.stime Segment.etime p (segs.between p q) q
  running : ∀ seg ∈ segs.between p q, seg.state = .running ∨ seg.state = .runnable
  softirqs : ∀ r : Soft, r.cpu = cpu →
    ((∃ seg ∈ segs.between p q,
        seg.state = .runnable ∧ seg.stime = r.stime ∧ seg.etime = r.etime) ↔
      r ∈ sl ∧ r.LiesIn p q)
  alone : ∀ seg ∈ segs.list, max p seg.stime < min q seg.etime → p ≤ seg.stime ∧ seg.etime ≤ q

/-- Where the code cuts a slice, its start included. -/
def SliceEdge (sl : List Soft) (cpu : Int64) (p q t : UInt64) : Prop :=
  t = p ∨ ∃ r : Soft, r.Cuts sl cpu p q ∧ p ≤ r.stime ∧ (t = r.stime ∨ t = r.etime)

/-- A softirq that starts at `t` cuts a slice of the thread after `out`. -/
def CutLater (sl : List Soft) (pid : Int64) (out : Switch) (after : List Switch) (t : UInt64) :
    Prop :=
  ∃ before into next rest, Slice pid (out :: after) before into next rest ∧
    ∃ r : Soft, r.Cuts sl next.cpu into.time next.time ∧ r.stime = t

/-- When a slice comes out right. The softirqs inside it cut it, the thread
does not exit at an edge of it, and later slices are cut at or after its end.
A later cut at the exit time does no harm: it ends as a point. -/
structure WellCut (sl : List Soft) (swl : List Switch) (pid : Int64) (into out : Switch)
    (after : List Switch) : Prop where
  first : ∀ r ∈ sl, r.cpu = out.cpu → r.LiesIn into.time out.time → EndsFirst sl into.time r
  kept : into.time < out.time → ∀ t, exitTime pid swl = some t →
    ¬SliceEdge sl out.cpu into.time out.time t
  spared : into.time < out.time → ∀ t, CutLater sl pid out after t → t < out.time →
    exitTime pid swl = some t

theorem slice_pieces_cases (sm : SoftMap) (pid : Int64) (pt : UInt64) (sw : Switch)
    (out : sw.SwitchesOut pid) :
    (pieces sm pid pt sw = [⟨pid, .running, pt, sw.time, noneId⟩] ∧
        ∀ sf, getCeilingSoft sm sw.cpu pt = some sf → ¬(sf.stime < sw.time ∧ sf.etime < sw.time)) ∨
      ∃ sf, getCeilingSoft sm sw.cpu pt = some sf ∧ sf.stime < sw.time ∧ sf.etime < sw.time ∧
        pieces sm pid pt sw =
          [⟨pid, .running, pt, sf.stime, noneId⟩,
            ⟨pid, .runnable, sf.stime, sf.etime, noneId⟩,
            ⟨pid, .running, sf.etime, sw.time, noneId⟩] := by
  unfold pieces
  rw [if_pos out.1, if_pos out.2]
  cases ceiling : getCeilingSoft sm sw.cpu pt with
  | none => exact Or.inl ⟨rfl, fun sf found => absurd found (Option.some_ne_none sf).symm⟩
  | some sf =>
      dsimp only
      by_cases preempted : sf.stime < sw.time ∧ sf.etime < sw.time
      · rw [if_pos preempted]
        exact Or.inr ⟨sf, rfl, preempted.1, preempted.2, rfl⟩
      · rw [if_neg preempted]
        refine Or.inl ⟨rfl, ?_⟩
        intro other found
        rw [← Option.some.inj found]
        exact preempted

theorem whole_slice_not_runnable (pid : Int64) (stime etime : UInt64) (seg : Segment)
    (member : seg ∈ Timeline.positive Segment.stime Segment.etime
      [⟨pid, .running, stime, etime, noneId⟩]) : seg.state ≠ .runnable := by
  have notRunnable : State.running ≠ .runnable := by decide
  rw [List.mem_singleton.mp ((Timeline.mem_positive _ _ _ seg).mp member).1]
  exact notRunnable

theorem cut_slice_runnable_iff (pid : Int64) (p q : UInt64) (sf r : Soft)
    (sameCpu : sf.cpu = r.cpu) :
    (∃ seg ∈ Timeline.positive Segment.stime Segment.etime
        [⟨pid, .running, p, sf.stime, noneId⟩, ⟨pid, .runnable, sf.stime, sf.etime, noneId⟩,
          ⟨pid, .running, sf.etime, q, noneId⟩],
      seg.state = .runnable ∧ seg.stime = r.stime ∧ seg.etime = r.etime) ↔
      sf = r ∧ r.stime < r.etime := by
  have notRunnable : State.running ≠ .runnable := by decide
  constructor
  · rintro ⟨seg, member, runnable, start, finish⟩
    obtain ⟨own, long⟩ := (Timeline.mem_positive _ _ _ seg).mp member
    simp only [List.mem_cons, List.not_mem_nil, or_false] at own
    rcases own with rfl | rfl | rfl
    · exact absurd runnable notRunnable
    · have same : sf = r := by
        cases sf
        cases r
        simp only [Soft.mk.injEq]
        exact ⟨sameCpu, start, finish⟩
      rw [← same]
      exact ⟨rfl, long⟩
    · exact absurd runnable notRunnable
  · rintro ⟨rfl, long⟩
    exact ⟨⟨pid, .runnable, sf.stime, sf.etime, noneId⟩,
      (Timeline.mem_positive _ _ _ _).mpr ⟨by simp, long⟩, rfl, rfl, rfl⟩

structure SliceBody (sl : List Soft) (cpu : Int64) (p q : UInt64) (body : List Segment) :
    Prop where
  covers : Timeline.Covers Segment.stime Segment.etime p body q
  states : ∀ seg ∈ body, seg.state = .running ∨ seg.state = .runnable
  taken : ∀ r : Soft, r.cpu = cpu →
    ((∃ seg ∈ Timeline.positive Segment.stime Segment.etime body,
        seg.state = .runnable ∧ seg.stime = r.stime ∧ seg.etime = r.etime) ↔
      r.LiesIn p q ∧ r.Cuts sl cpu p q)
  edges : p < q → ∀ t, (∃ seg ∈ Timeline.positive Segment.stime Segment.etime body,
    seg.stime = t) ↔ SliceEdge sl cpu p q t

theorem cuts_unique {sl : List Soft} {cpu : Int64} {p q : UInt64} {r other : Soft}
    (cuts : r.Cuts sl cpu p q) (again : other.Cuts sl cpu p q) : other = r := by
  have found := ((cuts_iff sl cpu p q r).mp cuts).1
  have foundAgain := ((cuts_iff sl cpu p q other).mp again).1
  exact Option.some.inj (foundAgain.symm.trans found)

theorem whole_slice_body (sl : List Soft) (cpu pid : Int64) (p q : UInt64) (order : p ≤ q)
    (uncut : ∀ r : Soft, r.Cuts sl cpu p q → r.stime < p) :
    SliceBody sl cpu p q [⟨pid, .running, p, q, noneId⟩] := by
  constructor
  · exact ⟨rfl, order, rfl⟩
  · intro seg member
    rw [List.mem_singleton.mp member]
    exact Or.inl rfl
  · intro r _
    constructor
    · rintro ⟨seg, member, runnable, _⟩
      exact absurd runnable (whole_slice_not_runnable pid p q seg member)
    · rintro ⟨⟨_, low, _⟩, cuts⟩
      exact absurd (uncut r cuts) (not_lt.mpr low)
  · intro long t
    constructor
    · rintro ⟨seg, member, start⟩
      rw [List.mem_singleton.mp ((Timeline.mem_positive _ _ _ seg).mp member).1] at start
      exact Or.inl start.symm
    · rintro (atStart | ⟨r, cuts, low, _⟩)
      · exact ⟨_, (Timeline.mem_positive _ _ _ _).mpr ⟨List.mem_singleton_self _, long⟩,
          atStart.symm⟩
      · exact absurd (uncut r cuts) (not_lt.mpr low)

theorem cut_slice_body (sl : List Soft) (cpu pid : Int64) (p q : UInt64) (sf : Soft)
    (cuts : sf.Cuts sl cpu p q) (low : p ≤ sf.stime) (forward : sf.stime ≤ sf.etime) :
    SliceBody sl cpu p q
      [⟨pid, .running, p, sf.stime, noneId⟩, ⟨pid, .runnable, sf.stime, sf.etime, noneId⟩,
        ⟨pid, .running, sf.etime, q, noneId⟩] := by
  constructor
  · exact ⟨rfl, low, rfl, forward, rfl, cuts.ends.le, rfl⟩
  · intro seg member
    simp only [List.mem_cons, List.not_mem_nil, or_false] at member
    rcases member with rfl | rfl | rfl
    · exact Or.inl rfl
    · exact Or.inr rfl
    · exact Or.inl rfl
  · intro r sameCpu
    rw [cut_slice_runnable_iff pid p q sf r (cuts.onCpu.trans sameCpu.symm)]
    constructor
    · rintro ⟨rfl, long⟩
      exact ⟨⟨long, low, cuts.ends⟩, cuts⟩
    · rintro ⟨⟨long, _, _⟩, again⟩
      exact ⟨(cuts_unique cuts again).symm, long⟩
  · intro _ t
    simp only [Timeline.mem_positive, List.mem_cons, List.not_mem_nil, or_false]
    constructor
    · rintro ⟨seg, ⟨rfl | rfl | rfl, _⟩, start⟩
      · exact Or.inl start.symm
      · exact Or.inr ⟨sf, cuts, low, Or.inl start.symm⟩
      · exact Or.inr ⟨sf, cuts, low, Or.inr start.symm⟩
    · -- the last piece has length, and a piece without any starts where the next does
      have last : ∃ seg : Segment, ((seg = ⟨pid, .running, p, sf.stime, noneId⟩ ∨
          seg = ⟨pid, .runnable, sf.stime, sf.etime, noneId⟩ ∨
            seg = ⟨pid, .running, sf.etime, q, noneId⟩) ∧ seg.stime < seg.etime) ∧
          seg.stime = sf.etime :=
        ⟨⟨pid, .running, sf.etime, q, noneId⟩, ⟨Or.inr (Or.inr rfl), cuts.ends⟩, rfl⟩
      have middle : ∃ seg : Segment, ((seg = ⟨pid, .running, p, sf.stime, noneId⟩ ∨
          seg = ⟨pid, .runnable, sf.stime, sf.etime, noneId⟩ ∨
            seg = ⟨pid, .running, sf.etime, q, noneId⟩) ∧ seg.stime < seg.etime) ∧
          seg.stime = sf.stime := by
        rcases forward.lt_or_eq with long | point
        · exact ⟨⟨pid, .runnable, sf.stime, sf.etime, noneId⟩, ⟨Or.inr (Or.inl rfl), long⟩, rfl⟩
        · rw [point]
          exact point ▸ last
      rintro (rfl | ⟨r, again, _, rfl | rfl⟩)
      · rcases low.lt_or_eq with long | point
        · exact ⟨⟨pid, .running, t, sf.stime, noneId⟩, ⟨Or.inl rfl, long⟩, rfl⟩
        · exact point ▸ middle
      · rw [cuts_unique cuts again]
        exact middle
      · rw [cuts_unique cuts again]
        exact last

/-- What a switch-out records: the slice's own part, after whatever a record
that ends exactly at the switch-in leaves before it. -/
theorem slice_pieces_body (sl : List Soft) (pid : Int64) (p : UInt64) (out : Switch)
    (leaves : out.SwitchesOut pid) (order : p ≤ out.time)
    (forward : ∀ r ∈ sl, r.stime ≤ r.etime)
    (apart : ∀ r ∈ sl, r.cpu = out.cpu → ¬(r.stime < p ∧ p < r.etime)) :
    ∃ aside body, pieces (softMapInit sl ∅) pid p out = aside ++ body ∧
      (∀ seg ∈ aside, seg.etime ≤ p) ∧ SliceBody sl out.cpu p out.time body := by
  rcases slice_pieces_cases (softMapInit sl ∅) pid p out leaves with
    ⟨single, whole⟩ | ⟨sf, found, starts, ends, three⟩
  · refine ⟨[], _, single, fun seg absent => absurd absent List.not_mem_nil,
      whole_slice_body sl out.cpu pid p out.time order ?_⟩
    intro r cuts
    obtain ⟨lookup, inside⟩ := (cuts_iff sl out.cpu p out.time r).mp cuts
    exact absurd inside (whole r lookup)
  · have cuts := (cuts_iff sl out.cpu p out.time sf).mpr ⟨found, starts, ends⟩
    have listed := (ceiling_soft_spec sl out.cpu p sf found).1
    by_cases early : sf.stime < p
    · -- the record ends at the switch-in, and is put before the slice
      have touches : sf.etime = p :=
        le_antisymm (not_lt.mp fun past => apart sf listed cuts.onCpu ⟨early, past⟩) cuts.reached
      refine ⟨[⟨pid, .running, p, sf.stime, noneId⟩, ⟨pid, .runnable, sf.stime, sf.etime, noneId⟩],
        [⟨pid, .running, sf.etime, out.time, noneId⟩], three, ?_, ?_⟩
      · intro seg member
        simp only [List.mem_cons, List.not_mem_nil, or_false] at member
        rcases member with rfl | rfl
        · exact early.le
        · exact touches.le
      · rw [touches]
        apply whole_slice_body sl out.cpu pid p out.time order
        intro r again
        rw [cuts_unique cuts again]
        exact early
    · exact ⟨[], _, three, fun seg absent => absurd absent List.not_mem_nil,
        cut_slice_body sl out.cpu pid p out.time sf cuts (not_lt.mp early) (forward sf listed)⟩

/-- The log of a thread around one of its slices: nothing recorded before
reaches into the slice, and what is recorded later either starts at its end or
after it, or is the RUNNABLE piece of a later cut. -/
structure SliceLog (sl : List Soft) (pid : Int64) (into out : Switch) (after : List Switch)
    (front body back : List Segment) : Prop where
  early : ∀ seg ∈ front, seg.etime ≤ into.time
  own : SliceBody sl out.cpu into.time out.time body
  late : ∀ seg ∈ back, seg.stime < out.time →
    seg.state = .runnable ∧ out.time ≤ seg.etime ∧ CutLater sl pid out after seg.stime
  later : ∀ t, CutLater sl pid out after t → ∃ seg ∈ back, seg.stime = t

theorem later_pieces (sl : List Soft) (pid : Int64) (out : Switch) (after : List Switch)
    (leaves : out.SwitchesOut pid) (sorted : TimeSorted (out :: after)) (seg : Segment)
    (member : seg ∈ segmentLog (softMapInit sl ∅) pid out.time
      (handledFrom pid (stateLeftBy pid out) after)) (early : seg.stime < out.time) :
    seg.state = .runnable ∧ out.time ≤ seg.etime ∧ CutLater sl pid out after seg.stime := by
  obtain ⟨front, into, next, back, split, own⟩ :=
    mem_segment_log (softMapInit sl ∅) pid seg out _ member
  rw [← handled_resumed pid out after leaves] at split
  have since : out.time ≤ into.time := by
    have first := handled_within_trace pid (out :: after) sorted into (by rw [split]; simp)
    exact first.1
  rcases pieces_cases (softMapInit sl ∅) pid into.time next with
    ⟨state, waitFor, single⟩ | ⟨nextLeaves, sf, found, starts, ends, three⟩
  · rw [single] at own
    rw [List.mem_singleton.mp own] at early
    exact absurd early (not_lt.mpr since)
  · have cuts := (cuts_iff sl next.cpu into.time next.time sf).mpr ⟨found, starts, ends⟩
    have reached := since.trans cuts.reached
    rw [three] at own
    simp only [List.mem_cons, List.not_mem_nil, or_false] at own
    rcases own with rfl | rfl | rfl
    · exact absurd early (not_lt.mpr since)
    · obtain ⟨before, rest, slice⟩ :=
        slice_of_handled pid (out :: after) front back into next nextLeaves split
      exact ⟨rfl, reached, before, into, next, rest, slice, sf, cuts, rfl⟩
    · exact absurd early (not_lt.mpr reached)

theorem later_cut_recorded (sl : List Soft) (pid : Int64) (out : Switch) (after : List Switch)
    (leaves : out.SwitchesOut pid) (t : UInt64) (later : CutLater sl pid out after t) :
    ∃ seg ∈ segmentLog (softMapInit sl ∅) pid out.time
      (handledFrom pid (stateLeftBy pid out) after), seg.stime = t := by
  obtain ⟨before, into, next, rest, slice, r, cuts, start⟩ := later
  obtain ⟨found, starts, ends⟩ := (cuts_iff sl next.cpu into.time next.time r).mp cuts
  obtain ⟨front, _, handled⟩ := slice.handled
  rw [handled_resumed pid out after leaves] at handled
  obtain ⟨earlier, run, _⟩ :=
    segment_log_split (softMapInit sl ∅) pid front into next _ out _ handled
  rcases slice_pieces_cases (softMapInit sl ∅) pid into.time next slice.leaves with
    ⟨_, whole⟩ | ⟨sf, foundAgain, _, _, three⟩
  · exact absurd ⟨starts, ends⟩ (whole r found)
  · have same : sf = r := Option.some.inj (foundAgain.symm.trans found)
    refine ⟨⟨pid, .runnable, sf.stime, sf.etime, noneId⟩, ?_, by rw [same]; exact start⟩
    rw [run, three]
    simp

theorem slice_log {pid : Int64} {swl before after : List Switch} {into out : Switch}
    (slice : Slice pid swl before into out after) (sorted : TimeSorted swl) (sl : List Soft)
    (forward : ∀ r ∈ sl, r.stime ≤ r.etime)
    (apart : ∀ r ∈ sl, r.cpu = out.cpu → ¬(r.stime < into.time ∧ into.time < r.etime)) :
    ∃ front body back, threadLog sl swl pid = front ++ body ++ back ∧
      SliceLog sl pid into out after front body back := by
  obtain ⟨order, _, sortedRest⟩ := slice.order sorted
  obtain ⟨front, log, ends⟩ := slice.log sorted sl
  obtain ⟨aside, body, recorded, before, own⟩ :=
    slice_pieces_body sl pid into.time out slice.leaves order forward apart
  refine ⟨front ++ aside, body, _, by rw [log, recorded, ← List.append_assoc front], ?_, own,
    later_pieces sl pid out after slice.leaves sortedRest,
    later_cut_recorded sl pid out after slice.leaves⟩
  intro seg member
  rcases List.mem_append.mp member with old | asided
  · exact ends seg old
  · exact before seg asided

section Final

variable {sl : List Soft} {swl : List Switch} {pid : Int64} {into out : Switch}
  {after : List Switch} {front body back : List Segment} {segs : Segments}

def Leaves (swl : List Switch) (pid : Int64) (out : Switch) (log : List Segment)
    (segs : Segments) : Prop :=
  ∀ seg : Segment, seg.stime < seg.etime → seg.stime < out.time →
    (seg ∈ segs.list ↔
      seg ∈ (Timeline.recordAll Segment.stime log ∅).values ∧ exitTime pid swl ≠ some seg.stime)

/-- A segment with a part of the slice is one of the slice's own or comes from
a later cut. -/
theorem SliceLog.overlap_cases (log : SliceLog sl pid into out after front body back)
    (left : Leaves swl pid out (front ++ body ++ back) segs) (seg : Segment)
    (member : seg ∈ segs.list) (long : seg.stime < seg.etime) (below : seg.stime < out.time)
    (above : into.time < seg.etime) :
    seg ∈ Timeline.positive Segment.stime Segment.etime body ∨
      seg.state = .runnable ∧ out.time ≤ seg.etime ∧ CutLater sl pid out after seg.stime ∧
        exitTime pid swl ≠ some seg.stime := by
  obtain ⟨stored, notExit⟩ := (left seg long below).mp member
  rcases List.mem_append.mp (Timeline.recorded_mem Segment.stime _ seg stored) with old | inBack
  · rcases List.mem_append.mp old with inFront | inBody
    · exact absurd above (not_lt.mpr (log.early seg inFront))
    · exact Or.inl ((Timeline.mem_positive _ _ body seg).mpr ⟨inBody, long⟩)
  · obtain ⟨runnable, ends, cut⟩ := log.late seg inBack below
    exact Or.inr ⟨runnable, ends, cut, notExit⟩

theorem SliceLog.between_eq (log : SliceLog sl pid into out after front body back)
    (left : Leaves swl pid out (front ++ body ++ back) segs)
    (well : WellCut sl swl pid into out after) (long : into.time < out.time) :
    segs.between into.time out.time = Timeline.positive Segment.stime Segment.etime body := by
  have tiles := Timeline.covers_positive_tiles Segment.stime Segment.etime log.own.covers
  apply Timeline.eq_of_ordered Segment.stime
  · exact ((list_ordered segs).filter _).filter _
  · refine (Timeline.covers_pairwise _ _ (Timeline.tiles_covers _ _ tiles)).imp_of_mem ?_
    intro earlier later member _ order
    exact ((Timeline.mem_positive _ _ body earlier).mp member).2.trans_le order
  · intro seg
    unfold Segments.between
    rw [Timeline.mem_between]
    constructor
    · rintro ⟨member, forward, low, high⟩
      have below := forward.trans_le high
      rcases log.overlap_cases left seg member forward below (low.trans_lt forward) with
        own | ⟨_, _, cut, notExit⟩
      · exact own
      · exact absurd (well.spared long _ cut below) notExit
    · intro own
      obtain ⟨inBody, forward⟩ := (Timeline.mem_positive _ _ body seg).mp own
      obtain ⟨low, _, high⟩ := Timeline.covers_bounds _ _ log.own.covers seg inBody
      have below := forward.trans_le high
      have edge := (log.own.edges long seg.stime).mp ⟨seg, own, rfl⟩
      have notExit : exitTime pid swl ≠ some seg.stime :=
        fun exit => well.kept long seg.stime exit edge
      refine ⟨(left seg forward below).mpr ⟨?_, notExit⟩, forward, low, high⟩
      apply Timeline.recorded_survives Segment.stime Segment.etime front back log.own.covers seg
        inBody forward
      intro later inBack same
      rw [← same] at below notExit
      exact notExit (well.spared long _ (log.late later inBack below).2.2 below)

theorem SliceLog.taken_out (log : SliceLog sl pid into out after front body back)
    (left : Leaves swl pid out (front ++ body ++ back) segs)
    (well : WellCut sl swl pid into out after) (long : into.time < out.time) :
    SoftirqsTakenOut sl out.cpu into.time out.time segs := by
  have slice := log.between_eq left well long
  constructor
  · rw [slice]
    exact Timeline.covers_positive_tiles Segment.stime Segment.etime log.own.covers
  · rw [slice]
    exact fun seg member => log.own.states seg ((Timeline.mem_positive _ _ body seg).mp member).1
  · intro r onCpu
    rw [slice, log.own.taken r onCpu]
    constructor
    · rintro ⟨lies, cuts⟩
      have found := ((cuts_iff sl out.cpu into.time out.time r).mp cuts).1
      exact ⟨(ceiling_soft_spec sl out.cpu into.time r found).1, lies⟩
    · rintro ⟨listed, lies⟩
      exact ⟨lies, onCpu, lies.2.1.trans lies.1.le, lies.1.trans lies.2.2, lies.2.2,
        well.first r listed onCpu lies⟩
  · intro seg member overlap
    obtain ⟨low, high⟩ := max_lt_iff.mp overlap
    obtain ⟨_, above⟩ := lt_min_iff.mp low
    obtain ⟨below, forward⟩ := lt_min_iff.mp high
    rcases log.overlap_cases left seg member forward below above with own | ⟨_, _, cut, notExit⟩
    · obtain ⟨inBody, _⟩ := (Timeline.mem_positive _ _ body seg).mp own
      obtain ⟨first, _, last⟩ := Timeline.covers_bounds _ _ log.own.covers seg inBody
      exact ⟨first, last⟩
    · exact absurd (well.spared long _ cut below) notExit

theorem SliceLog.own_between (log : SliceLog sl pid into out after front body back)
    (left : Leaves swl pid out (front ++ body ++ back) segs)
    (taken : SoftirqsTakenOut sl out.cpu into.time out.time segs) :
    segs.between into.time out.time = Timeline.positive Segment.stime Segment.etime body := by
  apply Timeline.tiles_eq_of_subset Segment.stime Segment.etime taken.tiled
    (Timeline.covers_positive_tiles Segment.stime Segment.etime log.own.covers)
  intro seg member
  obtain ⟨inMap, forward, low, high⟩ := (Timeline.mem_between _ _ _ _ segs.list seg).mp member
  rcases log.overlap_cases left seg inMap forward (forward.trans_le high)
    (low.trans_lt forward) with own | ⟨runnable, ends, _, _⟩
  · exact own
  · -- no softirq inside the slice ends at its end
    obtain ⟨_, _, _, inside⟩ := (taken.softirqs ⟨out.cpu, seg.stime, seg.etime⟩ rfl).mp
      ⟨seg, member, runnable, rfl, rfl⟩
    exact absurd inside (not_lt.mpr ends)

theorem SliceLog.well_cut (log : SliceLog sl pid into out after front body back)
    (left : Leaves swl pid out (front ++ body ++ back) segs)
    (taken : SoftirqsTakenOut sl out.cpu into.time out.time segs) :
    WellCut sl swl pid into out after := by
  have slice := log.own_between left taken
  constructor
  · intro r listed onCpu lies
    have found := (taken.softirqs r onCpu).mpr ⟨listed, lies⟩
    rw [slice] at found
    exact ((log.own.taken r onCpu).mp found).2.first
  · intro long t exit edge
    obtain ⟨seg, own, start⟩ := (log.own.edges long t).mpr edge
    rw [← slice] at own
    obtain ⟨inMap, forward, _, high⟩ := (Timeline.mem_between _ _ _ _ segs.list seg).mp own
    rw [← start] at exit
    exact ((left seg forward (forward.trans_le high)).mp inMap).2 exit
  · intro long t cut below
    by_contra notExit
    obtain ⟨seg, inBack, start⟩ := log.later t cut
    obtain ⟨stored, alsoInBack, same, found⟩ :=
      Timeline.recorded_last Segment.stime (front ++ body) back seg inBack
    rw [← start, ← same] at below notExit
    obtain ⟨runnable, ends, _⟩ := log.late stored alsoInBack below
    have forward := below.trans_le ends
    have inMap := (left stored forward below).mpr ⟨found, notExit⟩
    have overlap : max into.time stored.stime < min out.time stored.etime :=
      max_lt (lt_min long (long.trans_le ends)) (lt_min below forward)
    obtain ⟨low, high⟩ := taken.alone stored inMap overlap
    have member : stored ∈ segs.between into.time out.time :=
      (Timeline.mem_between _ _ _ _ segs.list stored).mpr ⟨inMap, forward, low, high⟩
    obtain ⟨_, _, _, inside⟩ := (taken.softirqs ⟨out.cpu, stored.stime, stored.etime⟩ rfl).mp
      ⟨stored, member, runnable, rfl, rfl⟩
    exact absurd inside (not_lt.mpr ends)

end Final

theorem point_slice (sl : List Soft) (swl : List Switch) (pid : Int64) (into out : Switch)
    (after : List Switch) (segs : Segments) (point : into.time = out.time) :
    SoftirqsTakenOut sl out.cpu into.time out.time segs ∧ WellCut sl swl pid into out after := by
  have none : ∀ r : Soft, ¬r.LiesIn into.time out.time := by
    rintro r ⟨long, low, high⟩
    rw [point] at low
    exact absurd (low.trans_lt (long.trans high)) (lt_irrefl _)
  have empty : segs.between into.time out.time = [] := by
    rw [point]
    exact Timeline.between_point Segment.stime Segment.etime out.time segs.list
  have short : ¬into.time < out.time := by
    rw [point]
    exact lt_irrefl _
  constructor
  · constructor
    · rw [empty]
      exact point
    · rw [empty]
      exact fun seg absent => absurd absent List.not_mem_nil
    · intro r _
      rw [empty]
      constructor
      · rintro ⟨seg, absent, _⟩
        exact absurd absent List.not_mem_nil
      · exact fun inside => absurd inside.2 (none r)
    · intro seg _ overlap
      exact absurd ((le_max_left _ _).trans_lt (overlap.trans_le (min_le_left _ _))) short
  · exact ⟨fun r _ _ lies => absurd lies (none r), fun long => absurd long short,
      fun long => absurd long short⟩

theorem slice_final (pl : List Int64) {swl : List Switch} (sl : List Soft) {pid : Int64}
    {before after : List Switch} {into out : Switch} (sorted : TimeSorted swl) (listed : pid ∈ pl)
    (slice : Slice pid swl before into out after) (forward : ∀ r ∈ sl, r.stime ≤ r.etime)
    (apart : ∀ r ∈ sl, r.cpu = out.cpu → ¬(r.stime < into.time ∧ into.time < r.etime)) :
    ∃ segs front body back, segmentsAfter pl swl sl pid = .ok segs ∧
      SliceLog sl pid into out after front body back ∧
      Leaves swl pid out (front ++ body ++ back) segs := by
  have inTrace : out ∈ swl := by
    rw [slice.split]
    simp
  have switches : out.Switches pid := ⟨slice.leaves.1, Or.inl slice.leaves.2⟩
  obtain ⟨segs, cut⟩ := (thread_segments_ok_iff sl swl pid).mpr fun _ => ⟨out, inTrace, switches⟩
  have call := (segments_after_eq pl swl sl pid (List.ne_nil_of_mem inTrace) listed).trans cut
  obtain ⟨front, body, back, whole, log⟩ := slice_log slice sorted sl forward apart
  refine ⟨segs, front, body, back, call, log, ?_⟩
  intro seg positive below
  have early := below.trans_le (time_within_trace sorted out inTrace).2
  rw [long_stored_iff sl swl pid segs cut seg positive early, Segments.list, store_all_tm, whole]
  rfl

/-- A slice is right in the map that `BreakIntoSegments` leaves exactly when
it is well cut: each softirq inside it is the first record of its CPU to end
from the switch-in on and the last one filed under its end, so that there is
at most one, and neither an exit nor a later cut spoils it. -/
theorem softirqs_taken_out_iff (pl : List Int64) (swl : List Switch) (sl : List Soft)
    (pid : Int64) (before after : List Switch) (into out : Switch) (sorted : TimeSorted swl)
    (listed : pid ∈ pl) (slice : Slice pid swl before into out after)
    (forward : ∀ r ∈ sl, r.stime ≤ r.etime)
    (apart : ∀ r ∈ sl, r.cpu = out.cpu → ¬(r.stime < into.time ∧ into.time < r.etime)) :
    ∃ segs, segmentsAfter pl swl sl pid = .ok segs ∧
      (SoftirqsTakenOut sl out.cpu into.time out.time segs ↔
        WellCut sl swl pid into out after) := by
  obtain ⟨segs, front, body, back, call, log, left⟩ :=
    slice_final pl sl sorted listed slice forward apart
  refine ⟨segs, call, ?_⟩
  rcases (slice.order sorted).1.lt_or_eq with long | point
  · exact ⟨log.well_cut left, fun well => log.taken_out left well long⟩
  · obtain ⟨taken, well⟩ := point_slice sl swl pid into out after segs point
    exact iff_of_true taken well

def sliceTrace : List Switch :=
  [switchTo (fun _ => "worker") 0 10 0 0 1, switchTo (fun _ => "worker") 0 30 1 1 0]

theorem slice_of_trace :
    Slice 1 sliceTrace [switchTo (fun _ => "worker") 0 10 0 0 1]
      (switchTo (fun _ => "worker") 0 10 0 0 1) (switchTo (fun _ => "worker") 0 30 1 1 0) [] :=
  ⟨rfl, by decide, by decide⟩

theorem no_cut_later (sl : List Soft) (pid : Int64) (out : Switch) (t : UInt64) :
    ¬CutLater sl pid out [] t := by
  rintro ⟨before, into, next, rest, ⟨split, _, previous⟩, _⟩
  cases before with
  | nil => cases previous
  | cons head tail =>
      have short := congrArg List.length split
      simp at short

theorem single_softirq_taken_out :
    ∃ segs, segmentsAfter [1] sliceTrace [⟨0, 15, 20⟩] 1 = .ok segs ∧
      SoftirqsTakenOut [⟨0, 15, 20⟩] 0 10 30 segs := by
  obtain ⟨segs, call, exactly⟩ :=
    softirqs_taken_out_iff [1] sliceTrace [⟨0, 15, 20⟩] 1 _ [] _ _ (by decide) (by decide)
      slice_of_trace (by decide) (by decide)
  refine ⟨segs, call, exactly.mpr ⟨?_, ?_, ?_⟩⟩
  · intro r member _ _
    rw [List.mem_singleton.mp member]
    exact ⟨by decide, [], [], rfl, fun other absent => absurd absent List.not_mem_nil⟩
  · intro _ t exit
    cases exit
  · exact fun _ t cut => absurd cut (no_cut_later _ 1 _ t)

def twoSoftirqs : List Soft := [⟨0, 12, 14⟩, ⟨0, 15, 20⟩]

theorem second_softirq_left_in :
    TimeSorted sliceTrace ∧ (∀ r ∈ twoSoftirqs, r.stime ≤ r.etime) ∧
      (twoSoftirqs.Pairwise fun r other => r.etime < other.stime) ∧
      (∀ r ∈ twoSoftirqs, ∀ t ∈ [10, 30], ¬(r.stime < t ∧ t < r.etime)) ∧
      ∃ segs, segmentsAfter [1] sliceTrace twoSoftirqs 1 = .ok segs ∧
        ¬SoftirqsTakenOut twoSoftirqs 0 10 30 segs := by
  refine ⟨by decide, by decide, by decide, ?_, ?_⟩
  · intro r member t point
    rcases List.mem_cons.mp point with first | second
    · rw [first]
      exact (by decide : ∀ r ∈ twoSoftirqs, ¬(r.stime < 10 ∧ 10 < r.etime)) r member
    · rw [List.mem_singleton.mp second]
      exact (by decide : ∀ r ∈ twoSoftirqs, ¬(r.stime < 30 ∧ 30 < r.etime)) r member
  obtain ⟨segs, front, body, back, call, log, left⟩ :=
    slice_final [1] twoSoftirqs (by decide) (by decide) slice_of_trace (by decide) (by decide)
  refine ⟨segs, call, fun taken => ?_⟩
  have first := (log.well_cut left taken).first ⟨0, 15, 20⟩ (by decide) rfl
    ⟨by decide, by decide, by decide⟩
  exact absurd (first.1 ⟨0, 12, 14⟩ (by decide) rfl (by decide)) (by decide)

end WPerf.Analyzer
