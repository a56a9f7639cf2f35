import WPerf.Library.Fallible
import WPerf.Analyzer.Prepared

/-!
# The segments of one thread

`threadSegments` is what `BreakIntoSegments` leaves for a listed thread, as a
function of the trace and the softirq table alone. The code refines it: on
the tables set-up leaves, and whatever threads were cut before, the call
stores exactly that value or fails as it does. Cutting a thread twice changes
nothing, since the second pass records over the same keys.
-/

namespace WPerf.Analyzer

open WPerf.Library

set_option autoImplicit false

def threadLog (sl : List Soft) (swl : List Switch) (pid : Int64) : List Segment :=
  segmentLog (softMapInit sl ∅) pid (initialTime pid swl) (handledEvents pid swl)

theorem thread_log_cons (sl : List Soft) (swl : List Switch) (pid : Int64) (first : Switch)
    (rest : List Switch) (handled : handledEvents pid swl = first :: rest) :
    threadLog sl swl pid =
      pieces (softMapInit sl ∅) pid (initialTime pid swl) first ++
        segmentLog (softMapInit sl ∅) pid first.time rest := by
  rw [threadLog, handled]
  rfl

/-- The segment stored after the loop for a thread without an exit time. -/
def placeholder (swl : List Switch) (pid : Int64) : Segment :=
  ⟨pid, .blocked, traceEnd swl, traceEnd swl, -unknown⟩

def threadSegments (sl : List Soft) (swl : List Switch) (pid : Int64) : Except Fault Segments :=
  match exitTime pid swl, handledEvents pid swl with
  | none, _ => .ok (Segments.new.storeAll (threadLog sl swl pid ++ [placeholder swl pid]))
  | some _, [] => .error .nilDereference
  | some t, _ :: _ => .ok ((Segments.new.storeAll (threadLog sl swl pid)).setETime t t)

theorem initial_time_alive (pid : Int64) (swl : List Switch) (alive : ¬Exits pid swl) :
    initialTime pid swl = traceEnd swl := by
  rw [initialTime, (exit_time_none_iff pid swl).mpr alive]
  rfl

theorem thread_segments_alive (sl : List Soft) (swl : List Switch) (pid : Int64)
    (alive : ¬Exits pid swl) :
    threadSegments sl swl pid =
      .ok (Segments.new.storeAll (threadLog sl swl pid ++ [placeholder swl pid])) := by
  unfold threadSegments
  rw [(exit_time_none_iff pid swl).mpr alive]

/-- What the table may hold for a listed thread between two calls. -/
def Held (sl : List Soft) (swl : List Switch) (pid : Int64) (segs : Segments) : Prop :=
  segs = Segments.new ∨ threadSegments sl swl pid = .ok segs

theorem store_all_over (segs : Segments) (list : List Segment)
    (covered : ∀ entry ∈ segs.tm.entries, ∃ seg ∈ list, seg.stime = entry.1) :
    segs.storeAll list = Segments.new.storeAll list := by
  apply Segments.ext
  rw [store_all_tm, store_all_tm]
  exact Timeline.record_all_over Segment.stime list segs.tm covered

theorem stored_key (list : List Segment) (entry : UInt64 × Segment)
    (member : entry ∈ (Segments.new.storeAll list).tm.entries) :
    ∃ seg ∈ list, seg.stime = entry.1 := by
  rw [store_all_tm] at member
  have value : entry.2 ∈ (Timeline.recordAll Segment.stime list ∅).values :=
    List.mem_map_of_mem member
  exact ⟨entry.2, Timeline.recorded_mem Segment.stime list entry.2 value,
    (Timeline.recorded_under_start Segment.stime list entry member).symm⟩

theorem set_etime_key (segs : Segments) (key t : UInt64) (entry : UInt64 × Segment)
    (member : entry ∈ (segs.setETime key t).tm.entries) :
    ∃ old ∈ segs.tm.entries, old.1 = entry.1 := by
  rcases (OrderedMap.mem_adjust key _ segs.tm entry).mp member with
    ⟨old, _⟩ | ⟨seg, old, same⟩
  · exact ⟨entry, old, rfl⟩
  · exact ⟨(key, seg), old, by rw [same]⟩

theorem pieces_start (sm : SoftMap) (pid : Int64) (pt : UInt64) (sw : Switch) :
    ∃ seg ∈ pieces sm pid pt sw, seg.stime = pt := by
  rcases pieces_cases sm pid pt sw with ⟨state, waitFor, single⟩ | ⟨_, sf, _, _, _, three⟩
  · rw [single]
    exact ⟨_, List.mem_singleton_self _, rfl⟩
  · rw [three]
    exact ⟨_, List.mem_cons_self, rfl⟩

/-- The first handled event of a thread records a piece at the initial time,
so an exited thread has a segment under its exit time. -/
theorem log_starts (sl : List Soft) (swl : List Switch) (pid : Int64)
    (active : handledEvents pid swl ≠ []) :
    ∃ seg ∈ threadLog sl swl pid, seg.stime = initialTime pid swl := by
  cases handled : handledEvents pid swl with
  | nil => exact absurd handled active
  | cons first rest =>
      rw [thread_log_cons sl swl pid first rest handled]
      rcases pieces_start (softMapInit sl ∅) pid (initialTime pid swl) first with
        ⟨seg, member, start⟩
      exact ⟨seg, List.mem_append_left _ member, start⟩

theorem exit_key_stored (sl : List Soft) (swl : List Switch) (pid : Int64) (t : UInt64)
    (exit : exitTime pid swl = some t) (active : handledEvents pid swl ≠ []) :
    ∃ seg, (t, seg) ∈ (Segments.new.storeAll (threadLog sl swl pid)).tm.entries := by
  rcases log_starts sl swl pid active with ⟨seg, member, start⟩
  have atExit : initialTime pid swl = t := by
    rw [initialTime, exit]
    rfl
  rw [store_all_tm]
  rw [atExit] at start
  rw [← start]
  exact Timeline.record_all_key Segment.stime (threadLog sl swl pid) ∅ seg member

theorem floor_of_key (segs : Segments) (key : UInt64) (seg : Segment)
    (member : (key, seg) ∈ segs.tm.entries) : segs.floor key = (key, some seg) := by
  have found : segs.tm.floor key = some (key, seg) :=
    (OrderedMap.floor_eq_some_iff key segs.tm (key, seg)).mpr
      ⟨member, le_refl key, fun _ _ below => below⟩
  unfold Segments.floor
  rw [found]

/-- A stored segment is a piece of the log. What is left under the initial
time is a point, whatever the log recorded there. -/
theorem stored_cases (sl : List Soft) (swl : List Switch) (pid : Int64) (segs : Segments)
    (cut : threadSegments sl swl pid = .ok segs) (seg : Segment) (member : seg ∈ segs.list) :
    (seg ∈ threadLog sl swl pid ∧ seg.stime ≠ initialTime pid swl) ∨
      (seg.stime = initialTime pid swl ∧ seg.etime = initialTime pid swl ∧ seg.pid = pid) := by
  obtain ⟨entry, stored, value⟩ := List.mem_map.mp member
  have key := segs.keyed entry stored
  rw [value] at key
  have logged : ∀ entry ∈ (Segments.new.storeAll (threadLog sl swl pid)).tm.entries,
      entry.2 ∈ threadLog sl swl pid := by
    intro entry old
    rw [store_all_tm] at old
    exact Timeline.recorded_mem Segment.stime _ entry.2 (List.mem_map_of_mem old)
  rcases exit_time_cases pid swl with ⟨_, alive⟩ | ⟨v, _, _, _, exit⟩
  · rw [thread_segments_alive sl swl pid alive] at cut
    rw [← Except.ok.inj cut, store_all_append] at stored
    rw [initial_time_alive pid swl alive]
    rcases (OrderedMap.mem_put _ _ _ entry).mp stored with last | ⟨old, apart⟩
    · have isPlaceholder : seg = placeholder swl pid := by
        rw [← value, last]
      rw [isPlaceholder]
      exact Or.inr ⟨rfl, rfl, rfl⟩
    · rw [key, ← value]
      exact Or.inl ⟨logged entry old, apart⟩
  · have atExit : initialTime pid swl = v.time := by
      rw [initialTime, exit]
      rfl
    unfold threadSegments at cut
    cases handled : handledEvents pid swl with
    | nil => simp [exit, handled] at cut
    | cons first rest =>
        simp only [exit, handled, Except.ok.injEq] at cut
        rw [← cut] at stored
        rw [atExit]
        rcases (OrderedMap.mem_adjust v.time _ _ entry).mp stored with
          ⟨old, apart⟩ | ⟨other, old, moved⟩
        · rw [key, ← value]
          exact Or.inl ⟨logged entry old, apart⟩
        · rw [key, ← value, moved]
          exact Or.inr ⟨rfl, rfl, segment_log_pid _ pid _ _ other (logged (v.time, other) old)⟩

theorem held_covered (sl : List Soft) (swl : List Switch) (pid : Int64) (segs : Segments)
    (held : Held sl swl pid segs) (list : List Segment)
    (records : ∀ seg ∈ threadLog sl swl pid, seg ∈ list)
    (ends : exitTime pid swl = none → placeholder swl pid ∈ list)
    (entry : UInt64 × Segment) (member : entry ∈ segs.tm.entries) :
    ∃ seg ∈ list, seg.stime = entry.1 := by
  rcases held with fresh | cut
  · rw [fresh] at member
    exact absurd member List.not_mem_nil
  · unfold threadSegments at cut
    cases exit : exitTime pid swl with
    | none =>
        simp only [exit, Except.ok.injEq] at cut
        rw [← cut] at member
        rcases stored_key _ entry member with ⟨seg, logged, start⟩
        rcases List.mem_append.mp logged with inLog | last
        · exact ⟨seg, records seg inLog, start⟩
        · rw [List.mem_singleton.mp last] at start
          exact ⟨placeholder swl pid, ends exit, start⟩
    | some t =>
        cases handled : handledEvents pid swl with
        | nil => simp [exit, handled] at cut
        | cons first rest =>
            simp only [exit, handled, Except.ok.injEq] at cut
            rw [← cut] at member
            rcases set_etime_key _ t t entry member with ⟨old, oldMember, same⟩
            rcases stored_key _ old oldMember with ⟨seg, logged, start⟩
            exact ⟨seg, records seg logged, start.trans same⟩

theorem break_finish_spec (pl : List Int64) (swl : List Switch) (sl : List Soft) (g : Globals)
    (pid : Int64) (segs : Segments) (prepared : Prepared pl swl sl g) (listed : pid ∈ pl)
    (held : Held sl swl pid segs) :
    breakFinish g pid (traceEnd swl) (segs.storeAll (threadLog sl swl pid)) =
      threadSegments sl swl pid := by
  have start := prepared.starts pid listed
  have exits := prepared.exits pid
  unfold breakFinish threadSegments
  rw [start, exits]
  dsimp only
  cases exit : exitTime pid swl with
  | none =>
      have atEnd : initialTime pid swl = traceEnd swl := by
        rw [initialTime, exit]
        rfl
      have whole : (segs.storeAll (threadLog sl swl pid)).put pid .blocked (initialTime pid swl)
          (traceEnd swl) (-unknown) =
            segs.storeAll (threadLog sl swl pid ++ [placeholder swl pid]) := by
        rw [store_all_append, atEnd]
        rfl
      dsimp only
      rw [whole, store_all_over segs _
        (held_covered sl swl pid segs held _ (fun _ logged => List.mem_append_left _ logged)
          (fun _ => List.mem_append_right _ (List.mem_singleton_self _)))]
  | some t =>
      cases handled : handledEvents pid swl with
      | nil =>
          have emptyLog : threadLog sl swl pid = [] := by
            rw [threadLog, handled]
            rfl
          have fresh : segs = Segments.new := by
            rcases held with new | cut
            · exact new
            · simp [threadSegments, exit, handled] at cut
          rw [emptyLog, fresh]
          rfl
      | cons first rest =>
          have active : handledEvents pid swl ≠ [] := by
            rw [handled]
            exact List.cons_ne_nil first rest
          rcases exit_key_stored sl swl pid t exit active with ⟨seg, member⟩
          have never : exitTime pid swl = none → placeholder swl pid ∈ threadLog sl swl pid := by
            rw [exit]
            exact fun absent => absurd absent (Option.some_ne_none t)
          rw [store_all_over segs _
            (held_covered sl swl pid segs held _ (fun _ logged => logged) never)]
          dsimp only
          rw [floor_of_key _ t seg member]

/-- `BreakIntoSegments` on a listed thread stores `threadSegments`, or fails
as it does, and touches no other variable. -/
theorem break_into_segments_spec (pl : List Int64) (swl : List Switch) (sl : List Soft)
    (g : Globals) (pid : Int64) (segs : Segments) (nonempty : swl ≠ [])
    (prepared : Prepared pl swl sl g) (listed : pid ∈ pl)
    (found : getSegments g pid = some segs) (held : Held sl swl pid segs) :
    breakIntoSegments g pid swl =
      (threadSegments sl swl pid).map fun segs =>
        { g with segMap := g.segMap.insert pid segs } := by
  obtain ⟨_, last, _, atEnd, _, final⟩ := trace_ends nonempty
  unfold breakIntoSegments
  rw [atEnd, found]
  dsimp only
  rw [break_loop_run, prepared.starts pid listed, prepared.softirqs, ← final]
  have finish := break_finish_spec pl swl sl g pid segs prepared listed held
  unfold threadLog handledEvents at finish
  dsimp only
  rw [finish]
  cases threadSegments sl swl pid <;> rfl

def segmentsAfter (pl : List Int64) (swl : List Switch) (sl : List Soft) (pid : Int64) :
    Except Fault Segments := do
  let g ← setUp pl swl sl
  let g ← breakIntoSegments g pid swl
  match getSegments g pid with
  | none => .error .nilDereference
  | some segs => return segs

theorem segments_after_eq (pl : List Int64) (swl : List Switch) (sl : List Soft) (pid : Int64)
    (nonempty : swl ≠ []) (listed : pid ∈ pl) :
    segmentsAfter pl swl sl pid = threadSegments sl swl pid := by
  rcases set_up_spec pl swl sl nonempty with ⟨g, ready, prepared, _, table⟩
  have found : getSegments g pid = some Segments.new := by
    rw [table, if_pos listed]
  have call := break_into_segments_spec pl swl sl g pid Segments.new nonempty prepared listed
    found (Or.inl rfl)
  unfold segmentsAfter
  rw [ready]
  change (breakIntoSegments g pid swl >>= _) = _
  rw [call]
  cases threadSegments sl swl pid with
  | error fault => rfl
  | ok segs =>
      change (match getSegments { g with segMap := g.segMap.insert pid segs } pid with
        | none => Except.error Fault.nilDereference
        | some segs => Except.ok segs) = Except.ok segs
      have stored : getSegments { g with segMap := g.segMap.insert pid segs } pid = some segs :=
        Finmap.lookup_insert g.segMap
      rw [stored]

/-- The tables while `main` cuts the listed threads: `pids` are done. -/
structure Segmented (pl : List Int64) (swl : List Switch) (sl : List Soft) (pids : List Int64)
    (g : Globals) : Prop where
  prepared : Prepared pl swl sl g
  cut : ∀ pid ∈ pids, ∃ segs,
    threadSegments sl swl pid = .ok segs ∧ getSegments g pid = some segs
  waiting : ∀ pid ∈ pl, pid ∉ pids → getSegments g pid = some Segments.new
  unlisted : ∀ pid ∉ pl, getSegments g pid = none

theorem Segmented.cut_eq {pl : List Int64} {swl : List Switch} {sl : List Soft}
    {pids : List Int64} {g : Globals} (segmented : Segmented pl swl sl pids g) {pid : Int64}
    (done : pid ∈ pids) {segs : Segments} (found : getSegments g pid = some segs) :
    threadSegments sl swl pid = .ok segs := by
  obtain ⟨own, cut, stored⟩ := segmented.cut pid done
  have same : own = segs := Option.some.inj (stored.symm.trans found)
  rw [same] at cut
  exact cut

theorem Segmented.held {pl : List Int64} {swl : List Switch} {sl : List Soft}
    {pids : List Int64} {g : Globals} (segmented : Segmented pl swl sl pids g) {pid : Int64}
    {segs : Segments} (found : getSegments g pid = some segs) : Held sl swl pid segs := by
  by_cases done : pid ∈ pids
  · exact Or.inr (segmented.cut_eq done found)
  · by_cases listed : pid ∈ pl
    · have fresh := segmented.waiting pid listed done
      exact Or.inl (Option.some.inj (found.symm.trans fresh))
    · rw [segmented.unlisted pid listed] at found
      cases found

theorem Prepared.with_segments {pl : List Int64} {swl : List Switch} {sl : List Soft}
    {g : Globals} (prepared : Prepared pl swl sl g) (segMap : GoMap Int64 Segments) :
    Prepared pl swl sl { g with segMap := segMap } :=
  ⟨prepared.softirqs, prepared.exits, prepared.starts, prepared.names⟩

theorem break_step_segmented {pl : List Int64} {swl : List Switch} {sl : List Soft}
    {pids : List Int64} {g : Globals} (segmented : Segmented pl swl sl pids g)
    (nonempty : swl ≠ []) (pid : Int64) (listed : pid ∈ pl) :
    breakIntoSegments g pid swl =
      (threadSegments sl swl pid).map fun segs =>
        { g with segMap := g.segMap.insert pid segs } := by
  by_cases done : pid ∈ pids
  · rcases segmented.cut pid done with ⟨segs, cut, found⟩
    exact break_into_segments_spec pl swl sl g pid segs nonempty segmented.prepared listed
      found (Or.inr cut)
  · exact break_into_segments_spec pl swl sl g pid Segments.new nonempty segmented.prepared
      listed (segmented.waiting pid listed done) (Or.inl rfl)

theorem Segmented.insert {pl : List Int64} {swl : List Switch} {sl : List Soft}
    {pids : List Int64} {g : Globals} (segmented : Segmented pl swl sl pids g) (pid : Int64)
    (listed : pid ∈ pl) (segs : Segments) (cut : threadSegments sl swl pid = .ok segs) :
    Segmented pl swl sl (pid :: pids) { g with segMap := g.segMap.insert pid segs } := by
  have own : getSegments { g with segMap := g.segMap.insert pid segs } pid = some segs :=
    Finmap.lookup_insert g.segMap
  have other : ∀ q, q ≠ pid →
      getSegments { g with segMap := g.segMap.insert pid segs } q = getSegments g q :=
    fun q different => Finmap.lookup_insert_of_ne g.segMap different
  constructor
  · exact segmented.prepared.with_segments _
  · intro q member
    by_cases same : q = pid
    · rw [same]
      exact ⟨segs, cut, own⟩
    · rw [other q same]
      exact segmented.cut q (List.mem_of_ne_of_mem same member)
  · intro q member fresh
    rw [List.mem_cons, not_or] at fresh
    rw [other q fresh.1]
    exact segmented.waiting q member fresh.2
  · intro q missing
    have different : q ≠ pid := fun same => missing (by rw [same]; exact listed)
    rw [other q different]
    exact segmented.unlisted q missing

/-- The first loop of `main` over any listed pids, repetitions included: it
fails if one of the threads cannot be cut, and otherwise leaves every thread's
segments. The graph is not touched. -/
theorem break_all_segmented {pl : List Int64} {swl : List Switch} {sl : List Soft}
    (nonempty : swl ≠ []) (pids : List Int64) (listed : ∀ pid ∈ pids, pid ∈ pl)
    {done : List Int64} {g g' : Globals} (segmented : Segmented pl swl sl done g)
    (run : breakAll swl pids g = .ok g') :
    Segmented pl swl sl (pids.reverse ++ done) g' ∧ g'.waitForGraph = g.waitForGraph := by
  induction pids generalizing done g with
  | nil =>
      have same : g = g' := Except.ok.inj run
      rw [← same]
      exact ⟨segmented, rfl⟩
  | cons pid rest ih =>
      rcases (Fallible.foldlM_cons_eq_ok_iff _ pid rest g g').mp run with
        ⟨middle, call, remaining⟩
      have listedPid := listed pid List.mem_cons_self
      rw [break_step_segmented segmented nonempty pid listedPid] at call
      cases cut : threadSegments sl swl pid with
      | error fault =>
          rw [cut] at call
          cases call
      | ok segs =>
          rw [cut] at call
          have stored : { g with segMap := g.segMap.insert pid segs } = middle :=
            Except.ok.inj call
          have next := segmented.insert pid listedPid segs cut
          rw [stored] at next
          have graph : middle.waitForGraph = g.waitForGraph := by
            rw [← stored]
          rcases ih (fun q member => listed q (List.mem_cons_of_mem pid member)) next remaining
            with ⟨final, finalGraph⟩
          rw [List.reverse_cons, List.append_assoc]
          exact ⟨final, finalGraph.trans graph⟩

theorem break_all_succeeds {pl : List Int64} {swl : List Switch} {sl : List Soft}
    (nonempty : swl ≠ []) (pids : List Int64) (listed : ∀ pid ∈ pids, pid ∈ pl)
    (cuts : ∀ pid ∈ pids, ∃ segs, threadSegments sl swl pid = .ok segs)
    {done : List Int64} {g : Globals} (segmented : Segmented pl swl sl done g) :
    ∃ g', breakAll swl pids g = .ok g' := by
  induction pids generalizing done g with
  | nil => exact ⟨g, rfl⟩
  | cons pid rest ih =>
      have listedPid := listed pid List.mem_cons_self
      rcases cuts pid List.mem_cons_self with ⟨segs, cut⟩
      rcases ih (fun q member => listed q (List.mem_cons_of_mem pid member))
        (fun q member => cuts q (List.mem_cons_of_mem pid member))
        (segmented.insert pid listedPid segs cut) with ⟨g', remaining⟩
      refine ⟨g', (Fallible.foldlM_cons_eq_ok_iff _ pid rest g g').mpr ⟨_, ?_, remaining⟩⟩
      rw [break_step_segmented segmented nonempty pid listedPid, cut]
      rfl

theorem set_up_segmented (pl : List Int64) (swl : List Switch) (sl : List Soft)
    (nonempty : swl ≠ []) :
    ∃ g, setUp pl swl sl = .ok g ∧ Segmented pl swl sl [] g ∧ g.waitForGraph = ∅ := by
  rcases set_up_spec pl swl sl nonempty with ⟨g, ready, prepared, graph, table⟩
  refine ⟨g, ready, ?_, graph⟩
  constructor
  · exact prepared
  · intro pid member
    exact absurd member List.not_mem_nil
  · intro pid listed _
    rw [table, if_pos listed]
  · intro pid missing
    rw [table, if_neg missing]

def cutThreads (pl pids : List Int64) (swl : List Switch) (sl : List Soft) :
    Except Fault Globals := do
  let g ← setUp pl swl sl
  breakAll swl pids g

theorem cut_threads_spec {pl pids : List Int64} {swl : List Switch} {sl : List Soft}
    {g : Globals} (listed : ∀ pid ∈ pids, pid ∈ pl) (run : cutThreads pl pids swl sl = .ok g) :
    swl ≠ [] ∧ Segmented pl swl sl pids.reverse g ∧ g.waitForGraph = ∅ := by
  have nonempty : swl ≠ [] := by
    intro empty
    rw [empty] at run
    cases run
  rcases set_up_segmented pl swl sl nonempty with ⟨ready, setUpRun, segmented, graph⟩
  unfold cutThreads at run
  rw [setUpRun] at run
  rcases break_all_segmented nonempty pids listed segmented run with ⟨final, finalGraph⟩
  rw [List.append_nil] at final
  exact ⟨nonempty, final, finalGraph.trans graph⟩

theorem cut_threads_succeeds {pl pids : List Int64} {swl : List Switch} {sl : List Soft}
    (nonempty : swl ≠ []) (listed : ∀ pid ∈ pids, pid ∈ pl)
    (cuts : ∀ pid ∈ pids, ∃ segs, threadSegments sl swl pid = .ok segs) :
    ∃ g, cutThreads pl pids swl sl = .ok g := by
  rcases set_up_segmented pl swl sl nonempty with ⟨ready, setUpRun, segmented, _⟩
  rcases break_all_succeeds nonempty pids listed cuts segmented with ⟨g, run⟩
  refine ⟨g, ?_⟩
  unfold cutThreads
  rw [setUpRun]
  exact run

theorem thread_segments_ok_iff (sl : List Soft) (swl : List Switch) (pid : Int64) :
    (∃ segs, threadSegments sl swl pid = .ok segs) ↔
      (Exits pid swl → ∃ sw ∈ swl, sw.Switches pid) := by
  rw [← handled_nonempty_iff]
  unfold threadSegments
  rcases exit_time_cases pid swl with ⟨absent, alive⟩ | ⟨v, member, exit, same, found⟩
  · rw [absent]
    exact iff_of_true ⟨_, rfl⟩ fun exits => absurd exits alive
  · have exits : Exits pid swl := ⟨v, member, exit, same⟩
    rw [found]
    cases handled : handledEvents pid swl with
    | nil =>
        apply iff_of_false
        · rintro ⟨segs, cut⟩
          cases cut
        · exact fun active => active exits rfl
    | cons first rest => exact iff_of_true ⟨_, rfl⟩ fun _ => List.cons_ne_nil first rest

/-- At any point of the first loop of `main`, the call for a listed thread
returns unless the thread exits in a trace that never switches it. -/
theorem break_into_segments_returns_iff (pl pids : List Int64) (swl : List Switch)
    (sl : List Soft) (g : Globals) (pid : Int64) (listed : ∀ pid ∈ pids, pid ∈ pl)
    (target : pid ∈ pl) (run : cutThreads pl pids swl sl = .ok g) :
    (∃ after, breakIntoSegments g pid swl = .ok after) ↔
      (Exits pid swl → ∃ sw ∈ swl, sw.Switches pid) := by
  obtain ⟨nonempty, segmented, _⟩ := cut_threads_spec listed run
  rw [break_step_segmented segmented nonempty pid target, ← thread_segments_ok_iff sl]
  constructor
  · rintro ⟨after, returned⟩
    obtain ⟨segs, cut, _⟩ := (Fallible.map_eq_ok_iff _ _ _).mp returned
    exact ⟨segs, cut⟩
  · rintro ⟨segs, cut⟩
    rw [cut]
    exact ⟨_, rfl⟩

def loneExit : List Switch :=
  [{ cpu := 0, time := 5, type := 3, prevPid := 7, nextPid := 0, prevState := 0, nextState := 0,
     prevComm := "worker", nextComm := "", inWhichCtx := 0 }]

theorem lone_exit_returns_for_another :
    ∃ g, cutThreads [7, 8] [] loneExit [] = .ok g ∧
      ((∃ after, breakIntoSegments g 8 loneExit = .ok after) ↔
        (Exits 8 loneExit → ∃ sw ∈ loneExit, sw.Switches 8)) := by
  have cuts : ∃ g, cutThreads [7, 8] [] loneExit [] = .ok g :=
    cut_threads_succeeds (List.cons_ne_nil _ _) (fun pid member => absurd member List.not_mem_nil)
      fun pid member => absurd member List.not_mem_nil
  obtain ⟨g, run⟩ := cuts
  exact ⟨g, run, break_into_segments_returns_iff [7, 8] [] loneExit [] g 8
    (fun pid member => absurd member List.not_mem_nil) (by decide) run⟩

theorem lone_exit_dereferences_nil :
    TimeSorted loneExit ∧ (∀ sw ∈ loneExit, sw.type ≤ 3) ∧
      ∃ g, setUp [7] loneExit [] = .ok g ∧
        breakIntoSegments g 7 loneExit = .error .nilDereference := by
  obtain ⟨g, ready, segmented, _⟩ := set_up_segmented [7] loneExit [] (by decide)
  refine ⟨by decide, by decide, g, ready, ?_⟩
  rw [break_step_segmented segmented (by decide) 7 (by decide)]
  rfl

end WPerf.Analyzer
