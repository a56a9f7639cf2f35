import WPerf.Analyzer.BlockedTime

/-!
# The walk over a waker's segments

`findAllWaitingSegments` starts at the segment `Floor` finds and goes to the
next key until a segment reaches the end of the wait. Nothing stops it at the
last segment: `Segments.Ceiling` asserts the type of a nil key there, where
`Segments.Floor` tests for nil first. So a call fails exactly when no segment
on its path reaches the end of the wait. It never runs for ever, because a
stored segment that ends before the wait does starts below the top word.
-/

namespace WPerf.Analyzer

open WPerf.Library

set_option autoImplicit false

/-- Enough of a segment's shape for `STime + 1` not to wrap in a walk. -/
def HasRoom (seg : Segment) : Prop := seg.stime ≤ seg.etime ∨ ∃ bound, seg.stime < bound

theorem has_room_before {seg : Segment} {etime : UInt64} (room : HasRoom seg)
    (early : seg.etime < etime) : ∃ bound, seg.stime < bound := by
  rcases room with forward | below
  · exact ⟨etime, forward.trans_lt early⟩
  · exact below

theorem pieces_room (sl : List Soft) (pid : Int64) (pt : UInt64) (sw : Switch) (seg : Segment)
    (member : seg ∈ pieces (softMapInit sl ∅) pid pt sw) :
    HasRoom seg ∨ (seg.stime = pt ∧ seg.etime = sw.time) := by
  rcases pieces_cases (softMapInit sl ∅) pid pt sw with
    ⟨state, waitFor, single⟩ | ⟨_, sf, found, starts, ends, three⟩
  · rw [single] at member
    rw [List.mem_singleton.mp member]
    exact Or.inr ⟨rfl, rfl⟩
  · apply Or.inl
    have reached := (ceiling_soft_spec sl sw.cpu pt sf found).2.2
    rw [three] at member
    simp only [List.mem_cons, List.not_mem_nil, or_false] at member
    rcases member with rfl | rfl | rfl
    · exact Or.inr ⟨sw.time, reached.trans_lt ends⟩
    · exact Or.inr ⟨sw.time, starts⟩
    · exact Or.inr ⟨sw.time, ends⟩

theorem segment_log_room (sl : List Soft) (pid : Int64) (pt : UInt64) (swl : List Switch)
    (sorted : TimeSorted swl) (after : ∀ sw ∈ swl, pt ≤ sw.time) (seg : Segment)
    (member : seg ∈ segmentLog (softMapInit sl ∅) pid pt swl) : HasRoom seg := by
  induction swl generalizing pt with
  | nil => simp [segmentLog] at member
  | cons sw rest ih =>
      rcases List.pairwise_cons.mp sorted with ⟨first, restSorted⟩
      rcases List.mem_append.mp member with own | later
      · rcases pieces_room sl pid pt sw seg own with room | ⟨start, finish⟩
        · exact room
        · apply Or.inl
          rw [start, finish]
          exact after sw List.mem_cons_self
      · exact ih sw.time restSorted first later

/-- The first handled event may come before the initial time, and what it
leaves under that time is overwritten. -/
theorem stored_room (sl : List Soft) (swl : List Switch) (pid : Int64) (segs : Segments)
    (sorted : TimeSorted swl) (cut : threadSegments sl swl pid = .ok segs) (seg : Segment) (member : seg ∈ segs.list) :
    HasRoom seg := by
  rcases stored_cases sl swl pid segs cut seg member with ⟨logged, apart⟩ | ⟨start, finish, _⟩
  · have order := handled_sorted pid swl sorted
    cases handled : handledEvents pid swl with
    | nil =>
        rw [threadLog, handled] at logged
        exact absurd logged List.not_mem_nil
    | cons first rest =>
        rw [thread_log_cons sl swl pid first rest handled] at logged
        rw [handled] at order
        rcases List.pairwise_cons.mp order with ⟨firstLeast, restSorted⟩
        rcases List.mem_append.mp logged with own | later
        · rcases pieces_room sl pid (initialTime pid swl) first seg own with room | ⟨start, _⟩
          · exact room
          · exact absurd start apart
        · exact segment_log_room sl pid first.time rest restSorted firstLeast seg later
  · exact Or.inl (le_of_eq (start.trans finish.symm))

def WalkStops (etime : UInt64) (path : List Segment) : Prop :=
  (∃ seg ∈ path, etime ≤ seg.etime) ∨ ∃ seg ∈ path.tail, etime ≤ seg.stime

instance (etime : UInt64) (path : List Segment) : Decidable (WalkStops etime path) :=
  inferInstanceAs (Decidable (_ ∨ _))

theorem walk_stops_cons (etime : UInt64) (seg next : Segment) (back : List Segment) :
    WalkStops etime (seg :: next :: back) ↔
      etime ≤ seg.etime ∨ etime ≤ next.stime ∨ WalkStops etime (next :: back) := by
  simp only [WalkStops, List.tail_cons, List.exists_mem_cons_iff]
  constructor
  · rintro ((ends | later) | (starts | later))
    · exact Or.inl ends
    · exact Or.inr (Or.inr (Or.inl later))
    · exact Or.inr (Or.inl starts)
    · exact Or.inr (Or.inr (Or.inr later))
  · rintro (ends | starts | later | later)
    · exact Or.inl (Or.inl ends)
    · exact Or.inr (Or.inl starts)
    · exact Or.inl (Or.inr later)
    · exact Or.inr (Or.inr later)

/-- `Ceiling(STime + 1)` goes to the next segment in key order, and fails at
the last one. -/
theorem ceiling_next (segs : Segments) (front back : List Segment) (seg : Segment)
    (split : segs.list = front ++ seg :: back) {bound : UInt64} (below : seg.stime < bound) :
    segs.ceiling (seg.stime + 1) =
      match back.head? with
      | none => .error .failedAssertion
      | some next => .ok (next.stime, some next) := by
  have order := list_ordered segs
  rw [split] at order
  rcases List.pairwise_append.mp order with ⟨_, tail, across⟩
  have after := (List.pairwise_cons.mp tail).1
  have keyMember : ∀ entry, entry ∈ segs.tm.entries → entry.2 ∈ segs.list :=
    fun entry member => List.mem_map_of_mem member
  have beyond : ∀ entry ∈ segs.tm.entries, seg.stime + 1 ≤ entry.1 → entry.2 ∈ back := by
    intro entry member above
    have stored := keyMember entry member
    rw [Word.lt_iff_succ_le below, ← segs.keyed entry member] at above
    rw [split] at stored
    rcases List.mem_append.mp stored with earlier | here
    · exact absurd above (not_lt.mpr (le_of_lt (across entry.2 earlier seg List.mem_cons_self)))
    · rcases List.mem_cons.mp here with same | later
      · rw [same] at above
        exact absurd above (lt_irrefl _)
      · exact later
  unfold Segments.ceiling
  cases back with
  | nil =>
      have missing : segs.tm.ceiling (seg.stime + 1) = none := by
        apply (OrderedMap.ceiling_eq_none_iff _ _).mpr
        intro entry member
        apply lt_of_not_ge
        intro above
        exact absurd (beyond entry member above) List.not_mem_nil
      rw [missing]
      rfl
  | cons next rest =>
      have stored : next ∈ segs.list := by
        rw [split]
        simp
      obtain ⟨entry, member, value⟩ := List.mem_map.mp stored
      have key := segs.keyed entry member
      have found : segs.tm.ceiling (seg.stime + 1) = some entry := by
        apply (OrderedMap.ceiling_eq_some_iff _ _ _).mpr
        refine ⟨member, ?_, ?_⟩
        · rw [Word.lt_iff_succ_le below, ← key, value]
          exact after next List.mem_cons_self
        · intro other otherMember above
          rw [← key, ← segs.keyed other otherMember, value]
          rcases List.mem_cons.mp (beyond other otherMember above) with same | later
          · rw [same]
          · exact le_of_lt ((List.pairwise_cons.mp (List.pairwise_cons.mp tail).2).1 _ later)
      rw [found]
      change Except.ok (entry.1, some entry.2) = Except.ok (next.stime, some next)
      rw [← key, value]

theorem wait_segs_loop_step (segs : Segments) (etime : UInt64) (front back : List Segment)
    (fuel : Nat) (seg : Segment) (waitSegs : List Segment) (room : HasRoom seg)
    (split : segs.list = front ++ seg :: back) :
    waitSegsLoop segs etime (fuel + 1) seg waitSegs =
      let waitSegs := if seg.state = .blocked then waitSegs ++ [seg] else waitSegs
      if etime ≤ seg.etime then .ok waitSegs
      else match back.head? with
        | none => .error .failedAssertion
        | some next =>
            if etime ≤ next.stime then .ok waitSegs
            else waitSegsLoop segs etime fuel next waitSegs := by
  rw [waitSegsLoop]
  dsimp only
  by_cases reaches : etime ≤ seg.etime
  · rw [if_pos reaches, if_pos reaches]
    rfl
  · rw [if_neg reaches, if_neg reaches]
    obtain ⟨bound, below⟩ := has_room_before room (not_le.mp reaches)
    rw [ceiling_next segs front back seg split below]
    cases back <;> rfl

theorem walk_outcome (segs : Segments) (etime : UInt64) (front back : List Segment)
    (room : ∀ seg ∈ segs.list, HasRoom seg) (fuel : Nat) (seg : Segment)
    (waitSegs : List Segment) (split : segs.list = front ++ seg :: back) :
    match waitSegsLoop segs etime fuel seg waitSegs with
    | .ok _ => WalkStops etime (seg :: back)
    | .error fault =>
        (fault = .failedAssertion ∧ ¬WalkStops etime (seg :: back)) ∨
          (fault = .outOfFuel ∧ fuel ≤ back.length) := by
  induction fuel generalizing front back seg waitSegs with
  | zero => exact Or.inr ⟨rfl, Nat.zero_le _⟩
  | succ fuel ih =>
      have stored : seg ∈ segs.list := by
        rw [split]
        simp
      rw [wait_segs_loop_step segs etime front back fuel seg waitSegs (room seg stored) split]
      dsimp only
      by_cases reaches : etime ≤ seg.etime
      · rw [if_pos reaches]
        exact Or.inl ⟨seg, List.mem_cons_self, reaches⟩
      · rw [if_neg reaches]
        cases back with
        | nil =>
            apply Or.inl
            simp [WalkStops, reaches]
        | cons next rest =>
            rw [List.head?_cons]
            dsimp only
            by_cases starts : etime ≤ next.stime
            · rw [if_pos starts]
              exact (walk_stops_cons etime seg next rest).mpr (Or.inr (Or.inl starts))
            · rw [if_neg starts, walk_stops_cons]
              have shifted : segs.list = (front ++ [seg]) ++ next :: rest := by
                rw [split]
                simp
              have tail := ih (front ++ [seg]) rest next
                (if seg.state = .blocked then waitSegs ++ [seg] else waitSegs) shifted
              cases outcome : waitSegsLoop segs etime fuel next
                  (if seg.state = .blocked then waitSegs ++ [seg] else waitSegs) with
              | ok found =>
                  rw [outcome] at tail
                  exact Or.inr (Or.inr tail)
              | error fault =>
                  rw [outcome] at tail
                  rcases tail with ⟨failed, never⟩ | ⟨spent, short⟩
                  · apply Or.inl
                    exact ⟨failed, not_or.mpr ⟨reaches, not_or.mpr ⟨starts, never⟩⟩⟩
                  · exact Or.inr ⟨spent, Nat.succ_le_succ short⟩

def walkPath (segs : Segments) (stime : UInt64) : List Segment :=
  match (segs.floor stime).2 with
  | none => []
  | some start => segs.list.filter fun seg => start.stime ≤ seg.stime

/-- The walk of `Cascade(w)` over its waker's segments, if it has one, finds a
reason to stop before it runs off the end. -/
def WalkEnds (g : Globals) (w : Segment) : Prop :=
  ∀ segs ∈ getSegments g w.waitFor,
    walkPath segs w.stime = [] ∨ WalkStops w.etime (walkPath segs w.stime)

instance (g : Globals) (w : Segment) : Decidable (WalkEnds g w) :=
  inferInstanceAs (Decidable (∀ segs ∈ _, _))

def Roomy (g : Globals) : Prop :=
  ∀ pid segs, getSegments g pid = some segs → ∀ seg ∈ segs.list, HasRoom seg

theorem floor_mem (segs : Segments) (stime : UInt64) (start : Segment)
    (found : (segs.floor stime).2 = some start) : start ∈ segs.list ∧ start.stime ≤ stime := by
  unfold Segments.floor at found
  cases lookup : segs.tm.floor stime with
  | none =>
      rw [lookup] at found
      cases found
  | some entry =>
      rw [lookup] at found
      have value : entry.2 = start := Option.some.inj found
      obtain ⟨member, below, _⟩ := (OrderedMap.floor_eq_some_iff stime segs.tm entry).mp lookup
      rw [← value, segs.keyed entry member]
      exact ⟨List.mem_map_of_mem member, below⟩

theorem walk_path_split (segs : Segments) (stime : UInt64) (start : Segment)
    (found : (segs.floor stime).2 = some start) :
    ∃ front back, segs.list = front ++ start :: back ∧ walkPath segs stime = start :: back := by
  obtain ⟨front, back, split⟩ := List.append_of_mem (floor_mem segs stime start found).1
  have order := list_ordered segs
  rw [split] at order
  obtain ⟨_, tail, across⟩ := List.pairwise_append.mp order
  refine ⟨front, back, split, ?_⟩
  have skipped : front.filter (fun seg => start.stime ≤ seg.stime) = [] := by
    apply List.filter_eq_nil_iff.mpr
    intro seg member
    simpa using across seg member start List.mem_cons_self
  have kept : (start :: back).filter (fun seg => start.stime ≤ seg.stime) = start :: back := by
    apply List.filter_eq_self.mpr
    intro seg member
    apply decide_eq_true
    rcases List.mem_cons.mp member with same | later
    · rw [same]
    · exact le_of_lt ((List.pairwise_cons.mp tail).1 seg later)
  unfold walkPath
  rw [found]
  dsimp only
  rw [split, List.filter_append, skipped, kept, List.nil_append]

/-- Every outcome of `findAllWaitingSegments`. The list it returns is empty in
all of them. -/
theorem find_all_outcome (g : Globals) (roomy : Roomy g) (fuel : Nat) (w : Segment) :
    match findAllWaitingSegments fuel g w.waitFor w.etime w.stime with
    | .ok found => found = [] ∧ WalkEnds g w
    | .error fault =>
        (fault = .failedAssertion ∧ ¬WalkEnds g w) ∨
          (fault = .outOfFuel ∧
            ∃ segs, getSegments g w.waitFor = some segs ∧ fuel ≤ segs.list.length) := by
  unfold findAllWaitingSegments WalkEnds
  cases table : getSegments g w.waitFor with
  | none => exact ⟨rfl, fun segs found => absurd found (Option.not_mem_none segs)⟩
  | some segs =>
      have only : (∀ other ∈ some segs, walkPath other w.stime = [] ∨
          WalkStops w.etime (walkPath other w.stime)) ↔
            walkPath segs w.stime = [] ∨ WalkStops w.etime (walkPath segs w.stime) := by
        simp
      rw [only]
      dsimp only
      cases found : (segs.floor w.stime).2 with
      | none =>
          refine ⟨rfl, Or.inl ?_⟩
          rw [walkPath, found]
      | some start =>
          obtain ⟨front, back, split, path⟩ := walk_path_split segs w.stime start found
          have outcome := walk_outcome segs w.etime front back (roomy w.waitFor segs table) fuel
            start [] split
          have nonempty : ¬start :: back = [] := List.cons_ne_nil start back
          rw [path, or_iff_right nonempty]
          dsimp only
          cases run : waitSegsLoop segs w.etime fuel start [] with
          | ok waitSegs =>
              rw [run] at outcome
              exact ⟨rfl, outcome⟩
          | error fault =>
              rw [run] at outcome
              rcases outcome with failed | ⟨spent, short⟩
              · exact Or.inl failed
              · refine Or.inr ⟨spent, segs, rfl, short.trans ?_⟩
                rw [split, List.length_append, List.length_cons]
                omega

end WPerf.Analyzer
