import Mathlib.Algebra.Order.BigOperators.Group.List
import Mathlib.Algebra.Order.Group.Nat
import Mathlib.Logic.Relation
import WPerf.Analyzer.Charges

/-!
# Cascaded redistribution

`Cascade` is written to hand a wait on to the waits of its waker: every
BLOCKED segment of the waker that overlaps it, clipped to it, and so on along
the chain of wakers. `findAllWaitingSegments` collects these segments and
returns nil, so nothing is handed on. The call is right exactly when there is
nothing to hand on.
-/

namespace WPerf.Analyzer

open WPerf.Library

set_option autoImplicit false

/-- The waits of the waker that overlap `w` in more than a point, clipped to
it. -/
def overlapping (g : Globals) (w : Segment) : List Segment :=
  match getSegments g w.waitFor with
  | none => []
  | some segs =>
      ((blockedList segs).filter fun seg =>
        max seg.stime w.stime < min seg.etime w.etime).map w.clip

def Link (g : Globals) (w seg : Segment) : Prop := seg ∈ overlapping g w

/-- Whatever the graph holds, a call that returns has added the segment's
length on its own edge, and then done what `Cascade` does on each overlapping
wait of the waker. It has changed no stored segment. -/
def Redistributes (g : Globals) (w : Segment) : Prop :=
  ∀ graph fuel g', cascade fuel (g.withGraph graph) w = .ok g' →
    (∃ fuel', (overlapping g w).foldlM (cascade fuel')
        (g.withGraph (Tally.addItem (edgeOf g) Segment.duration graph w)) = .ok g') ∧
      ∀ pid, getSegments g' pid = getSegments g pid

theorem clip_spec (w seg : Segment) :
    w.clip seg =
      { seg with stime := max seg.stime w.stime, etime := min seg.etime w.etime } := by
  unfold Segment.clip
  dsimp only
  split_ifs with early late late
  · rw [max_eq_right early.le, min_eq_right (le_of_lt late)]
  · rw [max_eq_right early.le, min_eq_left (not_lt.mp late)]
  · rw [max_eq_left (not_lt.mp early), min_eq_right (le_of_lt late)]
  · rw [max_eq_left (not_lt.mp early), min_eq_left (not_lt.mp late)]

theorem mem_overlapping (g : Globals) (w piece : Segment) :
    piece ∈ overlapping g w ↔
      ∃ segs seg, getSegments g w.waitFor = some segs ∧ seg ∈ blockedList segs ∧
        max seg.stime w.stime < min seg.etime w.etime ∧ w.clip seg = piece := by
  unfold overlapping
  cases getSegments g w.waitFor with
  | none => simp
  | some segs => simp [and_assoc]

theorem overlapping_inside (g : Globals) (w piece : Segment) (member : piece ∈ overlapping g w) :
    piece.state = .blocked ∧ w.stime ≤ piece.stime ∧ piece.stime < piece.etime ∧
      piece.etime ≤ w.etime := by
  obtain ⟨segs, seg, _, waits, overlaps, clipped⟩ := (mem_overlapping g w piece).mp member
  rw [← clipped, clip_spec]
  exact ⟨((mem_blocked_list segs seg).mp waits).2, le_max_right _ _, overlaps, min_le_right _ _⟩

theorem waits_of_table_apart {pl : List Int64} {swl : List Switch} {sl : List Soft}
    {pids : List Int64} {g : Globals} (segmented : Segmented pl swl sl pids g)
    (sorted : TimeSorted swl) (pid : Int64) (segs : Segments)
    (found : getSegments g pid = some segs) :
    (blockedList segs).Pairwise (Timeline.Apart Segment.stime Segment.etime) := by
  rcases segmented.held found with fresh | cut
  · rw [fresh]
    exact List.Pairwise.nil
  · exact thread_blocked_apart sorted cut

theorem overlapping_follow {pl : List Int64} {swl : List Switch} {sl : List Soft}
    {pids : List Int64} {g : Globals} (segmented : Segmented pl swl sl pids g)
    (sorted : TimeSorted swl) (w : Segment) :
    (overlapping g w).Pairwise fun earlier later => earlier.etime ≤ later.stime := by
  unfold overlapping
  cases found : getSegments g w.waitFor with
  | none => exact List.Pairwise.nil
  | some segs =>
      have apart := waits_of_table_apart segmented sorted w.waitFor segs found
      have ordered := (list_ordered segs).filter fun seg => seg.state = .blocked
      dsimp only
      rw [List.pairwise_map]
      refine ((ordered.and apart).filter _).imp_of_mem ?_
      intro left right _ rightMember both
      have overlaps := of_decide_eq_true (List.mem_filter.mp rightMember).2
      have long : right.stime < right.etime :=
        ((le_max_left _ _).trans_lt overlaps).trans_le (min_le_left _ _)
      have follows := Timeline.before_of_apart Segment.stime Segment.etime both.2 both.1 long
      rw [clip_spec, clip_spec]
      exact (min_le_left _ _).trans (follows.trans (le_max_left _ _))

/-- The total length of any handed-on pieces is positive and at most the length
of the wait, so it is not 0 as a machine word either. -/
theorem handed_on_total {pl : List Int64} {swl : List Switch} {sl : List Soft}
    {pids : List Int64} {g : Globals} (segmented : Segmented pl swl sl pids g)
    (sorted : TimeSorted swl) (w : Segment) (pieces : List Segment)
    (nonempty : pieces ≠ []) (chosen : pieces.Sublist (overlapping g w)) :
    (pieces.map Segment.duration).sum ≠ 0 := by
  have inside : ∀ piece ∈ pieces,
      w.stime ≤ piece.stime ∧ piece.stime < piece.etime ∧ piece.etime ≤ w.etime :=
    fun piece member => (overlapping_inside g w piece (chosen.subset member)).2
  have lengths := durations_toNat pieces fun piece member => (inside piece member).2.1.le
  obtain ⟨first, firstMember⟩ := List.exists_mem_of_ne_nil pieces nonempty
  obtain ⟨low, long, high⟩ := inside first firstMember
  have window : w.stime ≤ w.etime := (low.trans long.le).trans high
  have bound := Timeline.disjoint_lengths_le Segment.stime Segment.etime UInt64.toNat
    Word.toNat_monotone pieces window ((overlapping_follow segmented sorted w).sublist chosen)
    (fun piece member => ⟨(inside piece member).1, (inside piece member).2.1.le,
      (inside piece member).2.2⟩)
  have positive : 0 < (pieces.map fun piece => piece.etime.toNat - piece.stime.toNat).sum := by
    apply List.sum_pos
    · intro length member
      obtain ⟨piece, pieceMember, same⟩ := List.mem_map.mp member
      have order := UInt64.lt_iff_toNat_lt.mp (inside piece pieceMember).2.1
      omega
    · simpa using nonempty
  have size := w.etime.toNat_lt
  intro zero
  have total := Word.toNat_sum (pieces.map Segment.duration)
  rw [zero, lengths, Nat.mod_eq_of_lt (by omega)] at total
  have noWeight : (0 : UInt64).toNat = 0 := rfl
  omega

theorem charge_all_same_iff {pl : List Int64} {swl : List Switch} {sl : List Soft}
    {pids : List Int64} {g : Globals} (segmented : Segmented pl swl sl pids g)
    (sorted : TimeSorted swl) (w : Segment)
    (graph : GoMap String UInt64) :
    chargeAll (g.withGraph graph) (overlapping g w) = g.withGraph graph ↔
      ∀ piece ∈ overlapping g w, edgeOf g piece = none := by
  have allBlocked : blockedOf (overlapping g w) = overlapping g w := by
    apply List.filter_eq_self.mpr
    intro piece member
    exact decide_eq_true (overlapping_inside g w piece member).1
  unfold chargeAll
  rw [allBlocked]
  constructor
  · intro same piece member
    cases edge : edgeOf g piece with
    | none => rfl
    | some key =>
        let named := Tally.under (edgeOf g) key (overlapping g w)
        have inNamed : piece ∈ named := (Tally.mem_under _ key _ piece).mpr ⟨member, edge⟩
        have nonempty : named ≠ [] := List.ne_nil_of_mem inNamed
        have total := handed_on_total segmented sorted w named nonempty List.filter_sublist
        have entry := Tally.lookup_add_all (edgeOf g) Segment.duration key (overlapping g w) graph
        have unchanged : Tally.addAll (edgeOf g) Segment.duration (overlapping g w) graph = graph :=
          congrArg Globals.waitForGraph same
        rw [if_neg nonempty, unchanged] at entry
        have weight := congrArg (fun found => found.getD 0) entry
        exact absurd (left_eq_add.mp weight) total
  · intro nameless
    have nothing : ∀ key, Tally.under (edgeOf g) key (overlapping g w) = [] := by
      intro key
      apply List.filter_eq_nil_iff.mpr
      intro piece member
      rw [nameless piece member]
      simp
    have unchanged : Tally.addAll (edgeOf g) Segment.duration (overlapping g w) graph = graph := by
      apply Finmap.ext_lookup
      intro key
      rw [Tally.lookup_add_all, if_pos (nothing key)]
    exact congrArg g.withGraph unchanged

theorem cascade_blocked_iff (g : Globals) (roomy : Roomy g) (w : Segment)
    (blocked : w.state = .blocked) (g' : Globals) :
    (∃ fuel, cascade fuel g w = .ok g') ↔ WalkEnds g w ∧ charge g w = g' := by
  have result : ∀ fuel after, cascade fuel g w = .ok after → charge g w = after := by
    intro fuel after run
    cases fuel with
    | zero => cases run
    | succ fuel =>
        rcases (cascade_eq_ok_iff fuel g w after).mp run with ⟨awake, _⟩ | ⟨_, _, same⟩
        · exact absurd blocked awake
        · exact same
  constructor
  · intro ⟨fuel, run⟩
    exact ⟨(cascade_returns_iff g roomy w).mp ⟨fuel, g', run⟩ blocked, result fuel g' run⟩
  · intro ⟨ends, same⟩
    obtain ⟨fuel, after, run⟩ := (cascade_returns_iff g roomy w).mpr fun _ => ends
    exact ⟨fuel, by rw [run, ← result fuel after run, same]⟩

theorem passes_all_iff (g : Globals) (roomy : Roomy g) (list : List Segment)
    (blocked : ∀ w ∈ list, w.state = .blocked) :
    (∃ fuel, ∀ w ∈ list, Passes fuel g w) ↔ ∀ w ∈ list, WalkEnds g w := by
  constructor
  · intro ⟨fuel, passes⟩ w member
    obtain ⟨g', run⟩ := passes w member
    exact (cascade_returns_iff g roomy w).mp ⟨fuel, g', run⟩ (blocked w member)
  · intro ends
    choose bound settles using find_all_settles g roomy
    refine ⟨(list.map bound).sum + 1, ?_⟩
    intro w member
    have enough : bound w ≤ (list.map bound).sum :=
      List.le_sum_of_mem (List.mem_map_of_mem member)
    rcases settles w _ enough with ⟨_, run⟩ | ⟨never, _⟩
    · exact ⟨charge g w,
        (cascade_eq_ok_iff _ g w _).mpr (Or.inr ⟨blocked w member, run, rfl⟩)⟩
    · exact absurd (ends w member) never

theorem redistributes_at_iff {pl : List Int64} {swl : List Switch} {sl : List Soft}
    {pids : List Int64} {g : Globals} (segmented : Segmented pl swl sl pids g)
    (sorted : TimeSorted swl) (w : Segment)
    (blocked : w.state = .blocked) (ends : WalkEnds g w) :
    Redistributes g w ↔
      ∀ piece ∈ overlapping g w, edgeOf g piece = none ∧ WalkEnds g piece := by
  have roomy : Roomy g := segmented.roomy sorted
  have waits : ∀ piece ∈ overlapping g w, piece.state = .blocked :=
    fun piece member => (overlapping_inside g w piece member).1
  have charged : ∀ graph, charge (g.withGraph graph) w =
      g.withGraph (Tally.addItem (edgeOf g) Segment.duration graph w) :=
    fun graph => charge_tally (g.withGraph graph) w
  have handedOn : ∀ graph,
      (∃ fuel, (overlapping g w).foldlM (cascade fuel) (g.withGraph graph) =
          .ok (g.withGraph graph)) ↔
        ∀ piece ∈ overlapping g w, edgeOf g piece = none ∧ WalkEnds g piece := by
    intro graph
    simp only [cascades_run_iff, passes_graph, exists_and_right,
      charge_all_same_iff segmented sorted, passes_all_iff g roomy _ waits]
    constructor
    · intro ⟨walks, nameless⟩ piece member
      exact ⟨nameless piece member, walks piece member⟩
    · intro both
      exact ⟨fun piece member => (both piece member).2, fun piece member => (both piece member).1⟩
  constructor
  · intro redistributes
    obtain ⟨fuel, run⟩ := (cascade_blocked_iff (g.withGraph g.waitForGraph) roomy w blocked _).mpr
      ⟨ends, charged g.waitForGraph⟩
    exact (handedOn _).mp (redistributes g.waitForGraph fuel _ run).1
  · intro nothing graph fuel g' run
    obtain ⟨_, same⟩ := (cascade_blocked_iff (g.withGraph graph) roomy w blocked g').mp ⟨fuel, run⟩
    rw [charged] at same
    rw [← same]
    exact ⟨(handedOn _).mpr nothing, fun pid => rfl⟩

/-- After `main` has cut the listed threads, a call of `Cascade` on a BLOCKED
segment, stored or not, that returns has redistributed it along the whole chain
of wakers exactly when every piece it should have handed on is nameless at one
end, and its own call would return. -/
theorem cascade_redistributes_iff (pl : List Int64) (swl : List Switch) (sl : List Soft)
    (g : Globals) (sorted : TimeSorted swl) (run : cutThreads pl pl swl sl = .ok g)
    (w : Segment) (blocked : w.state = .blocked)
    (returns : ∃ fuel g', cascade fuel g w = .ok g') :
    (∀ v, Relation.ReflTransGen (Link g) w v → Redistributes g v) ↔
      ∀ v, Relation.TransGen (Link g) w v → edgeOf g v = none ∧ WalkEnds g v := by
  obtain ⟨_, segmented, _⟩ := cut_threads_spec (fun _ listed => listed) run
  have roomy : Roomy g := segmented.roomy sorted
  have ends : WalkEnds g w := (cascade_returns_iff g roomy w).mp returns blocked
  have reachedBlocked : ∀ v, Relation.ReflTransGen (Link g) w v → v.state = .blocked := by
    intro v reached
    cases reached with
    | refl => exact blocked
    | tail _ link => exact (overlapping_inside g _ v link).1
  have step : ∀ v, Relation.ReflTransGen (Link g) w v → WalkEnds g v →
      (Redistributes g v ↔
        ∀ piece ∈ overlapping g v, edgeOf g piece = none ∧ WalkEnds g piece) :=
    fun v reached walk =>
      redistributes_at_iff segmented sorted v (reachedBlocked v reached) walk
  constructor
  · intro chain v reached
    -- the walk of the segment before v is known to end when v is reached
    induction reached with
    | single link =>
        exact (step w Relation.ReflTransGen.refl ends).mp (chain w Relation.ReflTransGen.refl) _ link
    | tail path link ih =>
        have before := path.to_reflTransGen
        exact (step _ before ih.2).mp (chain _ before) _ link
  · intro nothing v reached
    have walk : WalkEnds g v := by
      rcases Relation.reflTransGen_iff_eq_or_transGen.mp reached with same | further
      · rw [same]
        exact ends
      · exact (nothing v further).2
    apply (step v reached walk).mpr
    intro piece link
    exact nothing piece (Relation.TransGen.tail' reached link)

def relayTrace : List Switch :=
  let comm : Int64 → String := fun pid =>
    if pid = 1 then "client" else if pid = 2 then "server" else if pid = 3 then "disk" else "idle"
  [switchTo comm 1 5 0 0 2,
    switchTo comm 0 10 1 1 0,
    switchTo comm 1 20 2 1 0,
    lifeEvent comm 1 1 30 3 2,
    lifeEvent comm 1 1 40 2 1]

theorem relay_server_redistributes :
    ∃ g, cutThreads [1, 2] [1, 2] relayTrace [] = .ok g ∧
      ((∀ v, Relation.ReflTransGen (Link g) ⟨2, .blocked, 20, 30, 3⟩ v → Redistributes g v) ↔
        ∀ v, Relation.TransGen (Link g) ⟨2, .blocked, 20, 30, 3⟩ v →
          edgeOf g v = none ∧ WalkEnds g v) := by
  have sorted : TimeSorted relayTrace := by decide
  obtain ⟨g, run⟩ : ∃ g, cutThreads [1, 2] [1, 2] relayTrace [] = .ok g := ⟨_, rfl⟩
  obtain ⟨_, segmented, _⟩ := cut_threads_spec (fun _ listed => listed) run
  have ends : WalkEnds g ⟨2, .blocked, 20, 30, 3⟩ := by
    intro segs found
    have missing : getSegments g 3 = none := segmented.unlisted 3 (by decide)
    exact absurd (missing.symm.trans found) (by simp)
  have returns := (cascade_returns_iff g (segmented.roomy sorted) _).mpr fun _ => ends
  exact ⟨g, run, cascade_redistributes_iff [1, 2] relayTrace [] g sorted run _ rfl returns⟩

theorem relay_wait_not_handed_on :
    TimeSorted relayTrace ∧
      ∃ g segs w, cutThreads [1, 2] [1, 2] relayTrace [] = .ok g ∧
        getSegments g 1 = some segs ∧ w ∈ blockedList segs ∧
        (∃ fuel g', cascade fuel g w = .ok g') ∧
        ¬∀ v, Relation.ReflTransGen (Link g) w v → Redistributes g v := by
  have sorted : TimeSorted relayTrace := by decide
  refine ⟨sorted, ?_⟩
  obtain ⟨g, run⟩ : ∃ g, cutThreads [1, 2] [1, 2] relayTrace [] = .ok g := ⟨_, rfl⟩
  obtain ⟨_, segmented, _⟩ := cut_threads_spec (fun _ listed => listed) run
  obtain ⟨client, clientCut, clientFound⟩ := segmented.cut 1 (by decide)
  obtain ⟨server, serverCut, serverFound⟩ := segmented.cut 2 (by decide)
  have clientIs : Segments.new.storeAll [⟨1, .blocked, 10, 40, 2⟩, ⟨1, .blocked, 40, 40, -13⟩] =
      client := Except.ok.inj clientCut
  have serverIs : Segments.new.storeAll [⟨2, .running, 5, 20, 0⟩, ⟨2, .blocked, 20, 30, 3⟩,
      ⟨2, .blocked, 40, 40, -13⟩] = server := Except.ok.inj serverCut
  let w : Segment := ⟨1, .blocked, 10, 40, 2⟩
  have ends : WalkEnds g w := by
    intro segs found
    have same : server = segs := Option.some.inj (serverFound.symm.trans found)
    rw [← same, ← serverIs]
    decide
  have handedOn : (⟨2, .blocked, 20, 30, 3⟩ : Segment) ∈ overlapping g w := by
    apply (mem_overlapping g w _).mpr
    refine ⟨server, ⟨2, .blocked, 20, 30, 3⟩, serverFound, ?_, by decide, by decide⟩
    rw [← serverIs]
    decide
  have named : edgeOf g ⟨2, .blocked, 20, 30, 3⟩ ≠ none := by
    unfold edgeOf
    rw [segmented.prepared.names, segmented.prepared.names]
    decide
  refine ⟨g, client, w, run, clientFound, ?_, ?_, ?_⟩
  · rw [← clientIs]
    decide
  · exact (cascade_returns_iff g (segmented.roomy sorted) w).mpr fun _ => ends
  · intro chain
    have first := (redistributes_at_iff segmented sorted w rfl ends).mp
      (chain w Relation.ReflTransGen.refl)
    exact named (first _ handedOn).1

end WPerf.Analyzer
