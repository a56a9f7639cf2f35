import WPerf.Analyzer.Walk

/-!
# What the walk collects

On a thread whose segments tile an interval, the loop of
`findAllWaitingSegments` starts at the segment that holds the start of the
wait and stops at the one that reaches its end. In between it copies the
BLOCKED segments, so its list is the waker's waits that overlap the wait asked
for. The function then drops the list and returns nil.
-/

namespace WPerf.Analyzer

open WPerf.Library

set_option autoImplicit false

def Segments.TilesFrom (segs : Segments) (lower upper : UInt64) : Prop :=
  Timeline.Tiles Segment.stime Segment.etime lower segs.list upper

/-- A BLOCKED segment that shares more than an endpoint with the wait. -/
def WaitsWithin (stime etime : UInt64) (seg : Segment) : Prop :=
  seg.state = .blocked ∧ seg.stime < etime ∧ stime < seg.etime

instance (stime etime : UInt64) (seg : Segment) : Decidable (WaitsWithin stime etime seg) :=
  inferInstanceAs (Decidable (_ ∧ _))

theorem floor_greatest (segs : Segments) (stime : UInt64) (start : Segment)
    (found : (segs.floor stime).2 = some start) (seg : Segment) (member : seg ∈ segs.list)
    (below : seg.stime ≤ stime) : seg.stime ≤ start.stime := by
  unfold Segments.floor at found
  cases lookup : segs.tm.floor stime with
  | none =>
      rw [lookup] at found
      cases found
  | some entry =>
      rw [lookup] at found
      have value : entry.2 = start := Option.some.inj found
      obtain ⟨stored, _, greatest⟩ := (OrderedMap.floor_eq_some_iff stime segs.tm entry).mp lookup
      obtain ⟨other, otherStored, rfl⟩ := List.mem_map.mp member
      rw [segs.keyed other otherStored] at below ⊢
      rw [← value, segs.keyed entry stored]
      exact greatest other otherStored below

theorem floor_found (segs : Segments) (stime : UInt64) (seg : Segment)
    (member : seg ∈ segs.list) (below : seg.stime ≤ stime) :
    ∃ start, (segs.floor stime).2 = some start := by
  unfold Segments.floor
  cases lookup : segs.tm.floor stime with
  | none =>
      obtain ⟨entry, stored, rfl⟩ := List.mem_map.mp member
      have above := (OrderedMap.floor_eq_none_iff stime segs.tm).mp lookup entry stored
      rw [← segs.keyed entry stored] at above
      exact absurd below (not_le.mpr above)
  | some entry => exact ⟨entry.2, rfl⟩

theorem floor_holds (segs : Segments) (lower upper stime : UInt64)
    (tiles : segs.TilesFrom lower upper) (low : lower ≤ stime) (high : stime < upper) :
    ∃ start front back, (segs.floor stime).2 = some start ∧ segs.list = front ++ start :: back ∧
      start.stime ≤ stime ∧ stime < start.etime := by
  have first : ∃ seg ∈ segs.list, seg.stime ≤ stime := by
    unfold Segments.TilesFrom at tiles
    cases list : segs.list with
    | nil =>
        rw [list] at tiles
        rw [show lower = upper from tiles] at low
        exact absurd high (not_lt.mpr low)
    | cons seg rest =>
        rw [list] at tiles
        exact ⟨seg, List.mem_cons_self, tiles.1.trans_le low⟩
  obtain ⟨seg, member, below⟩ := first
  obtain ⟨start, found⟩ := floor_found segs stime seg member below
  obtain ⟨stored, starts⟩ := floor_mem segs stime start found
  obtain ⟨front, back, split⟩ := List.append_of_mem stored
  refine ⟨start, front, back, found, split, starts, ?_⟩
  have parts := tiles
  unfold Segments.TilesFrom at parts
  rw [split] at parts
  obtain ⟨_, forward, after⟩ := Timeline.tiles_split Segment.stime Segment.etime parts
  apply lt_of_not_ge
  intro ended
  cases back with
  | nil =>
      rw [show start.etime = upper from after] at ended
      exact absurd high (not_lt.mpr ended)
  | cons next rest =>
      -- the next segment would be a later one at or below the time
      have nextStored : next ∈ segs.list := by
        rw [split]
        simp
      have nextBelow : next.stime ≤ stime := after.1.trans_le ended
      have notLater := floor_greatest segs stime start found next nextStored nextBelow
      rw [after.1] at notLater
      exact absurd forward (not_lt.mpr notLater)

/-- What one pass of the loop adds, as the selection from its own segment. -/
theorem pass_adds (etime : UInt64) (seg : Segment) (starts : seg.stime < etime)
    (waitSegs : List Segment) :
    (if seg.state = .blocked then waitSegs ++ [seg] else waitSegs) =
      waitSegs ++ [seg].filter fun other => other.state = .blocked ∧ other.stime < etime := by
  by_cases blocked : seg.state = .blocked
  · simp [blocked, starts]
  · simp [blocked]

theorem none_selected_after {stime etime upper : UInt64} {segments : List Segment}
    (tiles : Timeline.Tiles Segment.stime Segment.etime stime segments upper)
    (past : etime ≤ stime) :
    segments.filter (fun other => other.state = .blocked ∧ other.stime < etime) = [] := by
  apply List.filter_eq_nil_iff.mpr
  intro other member
  have bounds := Timeline.covers_bounds Segment.stime Segment.etime
    (Timeline.tiles_covers Segment.stime Segment.etime tiles) other member
  have after : ¬other.stime < etime := not_lt.mpr (past.trans bounds.1)
  simp [after]

theorem wait_segs_loop_collects (segs : Segments) (etime upper : UInt64) (reach : etime ≤ upper)
    (back : List Segment) (front : List Segment) (seg : Segment) (fuel : Nat)
    (waitSegs : List Segment) (enough : back.length < fuel)
    (split : segs.list = front ++ seg :: back) (starts : seg.stime < etime)
    (tiles : Timeline.Tiles Segment.stime Segment.etime seg.stime (seg :: back) upper) :
    waitSegsLoop segs etime fuel seg waitSegs =
      .ok (waitSegs ++ (seg :: back).filter fun other =>
        other.state = .blocked ∧ other.stime < etime) := by
  induction back generalizing front seg fuel waitSegs with
  | nil =>
      obtain ⟨fuel, rfl⟩ := Nat.exists_eq_add_of_lt enough
      obtain ⟨_, forward, ends⟩ := tiles
      have reaches : etime ≤ seg.etime := by
        rw [show seg.etime = upper from ends]
        exact reach
      rw [wait_segs_loop_step segs etime front [] _ seg waitSegs (Or.inl (le_of_lt forward)) split]
      dsimp only
      rw [if_pos reaches, pass_adds etime seg starts waitSegs]
  | cons next rest ih =>
      obtain ⟨fuel, rfl⟩ := Nat.exists_eq_add_of_lt enough
      obtain ⟨_, forward, tail⟩ := tiles
      have follows : next.stime = seg.etime := tail.1
      rw [wait_segs_loop_step segs etime front (next :: rest) _ seg waitSegs
        (Or.inl (le_of_lt forward)) split]
      dsimp only
      rw [List.head?_cons]
      dsimp only
      rw [pass_adds etime seg starts waitSegs]
      by_cases reaches : etime ≤ seg.etime
      · rw [if_pos reaches]
        have late := none_selected_after tail reaches
        have whole : seg :: next :: rest = [seg] ++ (next :: rest) := rfl
        rw [whole, List.filter_append, late, List.append_nil]
      · rw [if_neg reaches]
        have nextStarts : next.stime < etime := by
          rw [follows]
          exact not_le.mp reaches
        rw [if_neg (not_le.mpr nextStarts)]
        have shifted : segs.list = (front ++ [seg]) ++ next :: rest := by
          rw [split]
          simp
        have nextTiles :
            Timeline.Tiles Segment.stime Segment.etime next.stime (next :: rest) upper := by
          rw [follows]
          exact tail
        rw [ih (front ++ [seg]) next _ _ (by rw [List.length_cons]; omega) shifted nextStarts
          nextTiles]
        have whole : seg :: next :: rest = [seg] ++ (next :: rest) := rfl
        rw [whole, List.filter_append, List.append_assoc]

/-- The list at the exit of the loop, as a selection from the thread's
segments. -/
theorem wait_segs_loop_overlaps (segs : Segments) (lower upper stime etime : UInt64)
    (tiles : segs.TilesFrom lower upper) (low : lower ≤ stime) (forward : stime < etime)
    (high : etime ≤ upper) (fuel : Nat) (enough : segs.list.length ≤ fuel) :
    ∃ start, (segs.floor stime).2 = some start ∧
      waitSegsLoop segs etime fuel start [] =
        .ok (segs.list.filter fun seg => WaitsWithin stime etime seg) := by
  obtain ⟨start, front, back, found, split, starts, ends⟩ :=
    floor_holds segs lower upper stime tiles low (forward.trans_le high)
  refine ⟨start, found, ?_⟩
  unfold Segments.TilesFrom at tiles
  rw [split] at tiles
  obtain ⟨before, long, after⟩ := Timeline.tiles_split Segment.stime Segment.etime tiles
  have room : back.length < fuel := by
    rw [split, List.length_append, List.length_cons] at enough
    omega
  rw [wait_segs_loop_collects segs etime upper high back front start fuel [] room split
    (starts.trans_lt forward) ⟨rfl, long, after⟩, List.nil_append, split, List.filter_append]
  have earlier : front.filter (fun seg => WaitsWithin stime etime seg) = [] := by
    apply List.filter_eq_nil_iff.mpr
    intro seg member
    have bounds := Timeline.covers_bounds Segment.stime Segment.etime before seg member
    have done : ¬stime < seg.etime := not_lt.mpr (bounds.2.2.trans starts)
    simp [WaitsWithin, done]
  rw [earlier, List.nil_append]
  apply congrArg Except.ok
  apply List.filter_congr
  intro seg member
  have running : stime < seg.etime := by
    rcases List.mem_cons.mp member with rfl | later
    · exact ends
    · have bounds := Timeline.covers_bounds Segment.stime Segment.etime
        (Timeline.tiles_covers Segment.stime Segment.etime after) seg later
      exact ends.trans_le (bounds.1.trans bounds.2.1)
  simp [WaitsWithin, running]

theorem walk_collects_overlapping_waits (segs : Segments) (lower upper stime etime : UInt64)
    (tiles : segs.TilesFrom lower upper) (low : lower ≤ stime) (forward : stime < etime)
    (high : etime ≤ upper) (fuel : Nat) (enough : segs.list.length ≤ fuel) :
    ∃ start waitSegs, (segs.floor stime).2 = some start ∧
      waitSegsLoop segs etime fuel start [] = .ok waitSegs ∧
      (∀ seg, seg ∈ waitSegs ↔
        seg ∈ segs.list ∧ seg.state = .blocked ∧ seg.stime < etime ∧ stime < seg.etime) ∧
      waitSegs.Pairwise fun earlier later => earlier.stime < later.stime := by
  obtain ⟨start, found, collected⟩ :=
    wait_segs_loop_overlaps segs lower upper stime etime tiles low forward high fuel enough
  refine ⟨start, _, found, collected, ?_, (list_ordered segs).filter _⟩
  intro seg
  rw [List.mem_filter, decide_eq_true_iff]
  rfl

def blockedTwice : Segments :=
  ((Segments.new.put 7 .blocked 0 3 1).put 7 .running 3 5 noneId).put 7 .blocked 5 9 1

theorem walk_collects_two :
    ∃ start waitSegs, (blockedTwice.floor 2).2 = some start ∧
      waitSegsLoop blockedTwice 6 3 start [] = .ok waitSegs ∧
      (∀ seg, seg ∈ waitSegs ↔
        seg ∈ blockedTwice.list ∧ seg.state = .blocked ∧ seg.stime < 6 ∧ 2 < seg.etime) ∧
      waitSegs.Pairwise fun earlier later => earlier.stime < later.stime := by
  have tiles : blockedTwice.TilesFrom 0 9 :=
    ⟨by decide, by decide, by decide, by decide, by decide, by decide, rfl⟩
  exact walk_collects_overlapping_waits blockedTwice 0 9 2 6 tiles (by decide) (by decide)
    (by decide) 3 (by decide)

end WPerf.Analyzer
