import WPerf.Analyzer.Redistribution

/-!
# What the wait-for graph says in the end

The key of an edge is the two names with commas between and after them, so two
edges share a key only if they join the same names, as long as the trace's
names have no comma. The final graph then lists exactly the pairs of names
with a wait between them, each with the total length of these waits.
-/

namespace WPerf.Analyzer

open WPerf.Library

set_option autoImplicit false

/-- The name of a thread, or "" if no event mentions it. -/
def commOf (swl : List Switch) (pid : Int64) : String := (firstComm pid swl).getD ""

def CommaFree (name : String) : Prop := ',' ∉ name.toList

def NamesCommaFree (swl : List Switch) : Prop :=
  ∀ v ∈ swl, CommaFree v.prevComm ∧ CommaFree v.nextComm

instance (name : String) : Decidable (CommaFree name) := inferInstanceAs (Decidable (¬_))

instance (swl : List Switch) : Decidable (NamesCommaFree swl) :=
  inferInstanceAs (Decidable (∀ v ∈ swl, _))

theorem edge_key_chars (left right : String) :
    (edgeKey left right).toList = left.toList ++ ',' :: (right.toList ++ [',']) := by
  simp [edgeKey, String.toList_append]

theorem edge_key_eq_iff (left right a b : String) (leftFree : CommaFree left)
    (rightFree : CommaFree right) : edgeKey left right = edgeKey a b ↔ left = a ∧ right = b := by
  constructor
  · intro same
    have chars := congrArg String.toList same
    rw [edge_key_chars, edge_key_chars, ← List.cons_append, ← List.cons_append,
      ← List.append_assoc, ← List.append_assoc] at chars
    have trimmed := List.append_cancel_right chars
    obtain ⟨first, _, second⟩ := (List.append_cons_inj_of_notMem leftFree rightFree).mp trimmed
    exact ⟨String.toList_inj.mp first, String.toList_inj.mp second⟩
  · intro ⟨first, second⟩
    rw [first, second]

theorem first_comm_cases (pid : Int64) (swl : List Switch) (name : String)
    (found : firstComm pid swl = some name) :
    ∃ v ∈ swl, (v.prevPid = pid ∧ name = v.prevComm) ∨ (v.nextPid = pid ∧ name = v.nextComm) := by
  induction swl with
  | nil => cases found
  | cons v rest ih =>
      unfold firstComm at found
      split_ifs at found with prev next
      · exact ⟨v, List.mem_cons_self, Or.inl ⟨prev, (Option.some.inj found).symm⟩⟩
      · exact ⟨v, List.mem_cons_self, Or.inr ⟨next, (Option.some.inj found).symm⟩⟩
      · obtain ⟨other, member, same⟩ := ih found
        exact ⟨other, List.mem_cons_of_mem v member, same⟩

theorem comm_of_comma_free (swl : List Switch) (free : NamesCommaFree swl) (pid : Int64) :
    CommaFree (commOf swl pid) := by
  unfold commOf
  cases found : firstComm pid swl with
  | none => exact List.not_mem_nil
  | some name =>
      obtain ⟨v, member, same⟩ := first_comm_cases pid swl name found
      rcases same with prev | next
      · rw [Option.getD_some, prev.2]
        exact (free v member).1
      · rw [Option.getD_some, next.2]
        exact (free v member).2

theorem edge_of_eq_iff {pl : List Int64} {swl : List Switch} {sl : List Soft} {g : Globals}
    (prepared : Prepared pl swl sl g) (free : NamesCommaFree swl) (w : Segment) (a b : String)
    (aNamed : a ≠ "") (bNamed : b ≠ "") :
    edgeOf g w = some (edgeKey a b) ↔ commOf swl w.pid = a ∧ commOf swl w.waitFor = b := by
  have waiter : getComm g w.pid = commOf swl w.pid := prepared.names w.pid
  have waker : getComm g w.waitFor = commOf swl w.waitFor := prepared.names w.waitFor
  unfold edgeOf
  rw [waiter, waker]
  split_ifs with nameless
  · constructor
    · intro absent
      cases absent
    · intro ⟨first, second⟩
      rcases nameless with empty | empty
      · exact absurd (first.symm.trans empty) aNamed
      · exact absurd (second.symm.trans empty) bNamed
  · rw [Option.some.injEq]
    exact edge_key_eq_iff _ _ a b (comm_of_comma_free swl free w.pid)
      (comm_of_comma_free swl free w.waitFor)

theorem stored_pid (sl : List Soft) (swl : List Switch) (pid : Int64) (segs : Segments)
    (cut : threadSegments sl swl pid = .ok segs) (seg : Segment) (member : seg ∈ segs.list) :
    seg.pid = pid := by
  rcases stored_cases sl swl pid segs cut seg member with ⟨logged, _⟩ | ⟨_, _, own⟩
  · exact segment_log_pid _ pid _ _ seg logged
  · exact own

/-- The stored waits of the listed threads named `a` for threads named `b`,
thread by thread. -/
def waitsBetween (swl : List Switch) (g : Globals) (pl : List Int64) (a b : String) :
    List Segment :=
  (pl.filter fun pid => commOf swl pid = a).flatMap fun pid =>
    (((getSegments g pid).map blockedList).getD []).filter fun seg => commOf swl seg.waitFor = b

theorem mem_waits_between (swl : List Switch) (g : Globals) (pl : List Int64) (a b : String)
    (seg : Segment) :
    seg ∈ waitsBetween swl g pl a b ↔
      ∃ pid ∈ pl, commOf swl pid = a ∧ ∃ segs, getSegments g pid = some segs ∧
        seg ∈ blockedList segs ∧ commOf swl seg.waitFor = b := by
  simp only [waitsBetween, List.mem_flatMap, List.mem_filter, decide_eq_true_eq, and_assoc]
  constructor
  · intro ⟨pid, listed, named, stored, waker⟩
    cases found : getSegments g pid with
    | none => simp [found] at stored
    | some segs =>
        refine ⟨pid, listed, named, segs, found, ?_, waker⟩
        simpa [found] using stored
  · intro ⟨pid, listed, named, segs, found, stored, waker⟩
    refine ⟨pid, listed, named, ?_, waker⟩
    rw [found]
    exact stored

theorem under_edge_eq {pl : List Int64} {swl : List Switch} {sl : List Soft} {pids : List Int64}
    {g : Globals} (segmented : Segmented pl swl sl pids g) (free : NamesCommaFree swl)
    (a b : String) (aNamed : a ≠ "") (bNamed : b ≠ "") (listed : List Int64)
    (cut : ∀ pid ∈ listed, pid ∈ pids) :
    Tally.under (edgeOf g) (edgeKey a b) (blockedOf (storedOf g listed)) =
      waitsBetween swl g listed a b := by
  induction listed with
  | nil => rfl
  | cons pid rest ih =>
      obtain ⟨segs, segments, found⟩ := segmented.cut pid (cut pid List.mem_cons_self)
      have tail := ih fun other member => cut other (List.mem_cons_of_mem pid member)
      have split : storedOf g (pid :: rest) = segs.list ++ storedOf g rest := by
        simp [storedOf, found]
      have own : Tally.under (edgeOf g) (edgeKey a b) (blockedList segs) =
          (blockedList segs).filter fun seg =>
            decide (commOf swl pid = a) && decide (commOf swl seg.waitFor = b) := by
        apply List.filter_congr
        intro seg member
        have sameThread := stored_pid sl swl pid segs segments seg
          ((mem_blocked_list segs seg).mp member).1
        have edge := edge_of_eq_iff segmented.prepared free seg a b aNamed bNamed
        rw [sameThread] at edge
        rw [← Bool.decide_and]
        exact decide_eq_decide.mpr edge
      have parts : Tally.under (edgeOf g) (edgeKey a b) (blockedOf (storedOf g (pid :: rest))) =
          Tally.under (edgeOf g) (edgeKey a b) (blockedList segs) ++
            Tally.under (edgeOf g) (edgeKey a b) (blockedOf (storedOf g rest)) := by
        rw [split]
        unfold blockedOf Tally.under
        rw [List.filter_append, List.filter_append]
        rfl
      rw [parts, own, tail]
      unfold waitsBetween
      by_cases named : commOf swl pid = a
      · have kept : ((pid :: rest).filter fun pid => commOf swl pid = a) =
            pid :: rest.filter fun pid => commOf swl pid = a := by
          simp [named]
        rw [kept, List.flatMap_cons, found]
        simp [named]
      · have skipped : ((pid :: rest).filter fun pid => commOf swl pid = a) =
            rest.filter fun pid => commOf swl pid = a := by
          simp [named]
        rw [skipped]
        simp [named]

theorem blocked_list_nodup (segs : Segments) : (blockedList segs).Nodup := by
  refine ((list_ordered segs).filter _).imp ?_
  intro earlier later order same
  rw [same] at order
  exact lt_irrefl _ order

theorem waits_between_nodup {pl : List Int64} {swl : List Switch} {sl : List Soft}
    {pids : List Int64} {g : Globals} (segmented : Segmented pl swl sl pids g) (a b : String)
    (listed : List Int64) (distinct : listed.Nodup) (cut : ∀ pid ∈ listed, pid ∈ pids) :
    (waitsBetween swl g listed a b).Nodup := by
  unfold waitsBetween
  have owned : ∀ pid ∈ listed, ∀ seg,
      seg ∈ (((getSegments g pid).map blockedList).getD []).filter
        (fun seg => commOf swl seg.waitFor = b) → seg.pid = pid := by
    intro pid member seg inThread
    obtain ⟨segs, segments, found⟩ := segmented.cut pid (cut pid member)
    rw [found] at inThread
    exact stored_pid sl swl pid segs segments seg
      ((mem_blocked_list segs seg).mp (List.mem_filter.mp inThread).1).1
  apply List.nodup_flatMap.mpr
  constructor
  · intro pid _
    apply List.Nodup.filter
    cases getSegments g pid with
    | none => exact List.nodup_nil
    | some segs => exact blocked_list_nodup segs
  · refine (distinct.filter _).imp_of_mem ?_
    intro left right leftMember rightMember different seg inLeft inRight
    apply different
    rw [← owned left (List.mem_filter.mp leftMember).1 seg inLeft]
    exact owned right (List.mem_filter.mp rightMember).1 seg inRight

theorem duration_sum (list : List Segment) (forward : ∀ seg ∈ list, seg.stime ≤ seg.etime) :
    (list.map Segment.duration).sum =
      UInt64.ofNat (list.map fun seg => seg.etime.toNat - seg.stime.toNat).sum := by
  apply UInt64.toNat_inj.mp
  rw [Word.toNat_sum, durations_toNat list forward, UInt64.toNat_ofNat']

/-- After a complete run: the graph has the key of two names exactly when a
listed thread of the first name has waited for a thread of the second, and its
weight is the total length of all such waits, each counted once. Nothing is
handed on, so the waits may overlap those of the wakers. -/
theorem waits_accounted (fuel : Nat) (pl : List Int64) (swl : List Switch) (sl : List Soft)
    (g : Globals) (a b : String) (sorted : TimeSorted swl) (distinct : pl.Nodup)
    (free : NamesCommaFree swl) (run : analyze fuel pl swl sl = .ok g)
    (aNamed : a ≠ "") (bNamed : b ≠ "") :
    (edgeKey a b ∈ g.waitForGraph ↔
      ∃ pid ∈ pl, commOf swl pid = a ∧ ∃ segs, getSegments g pid = some segs ∧
        ∃ seg ∈ blockedList segs, commOf swl seg.waitFor = b) ∧
      (waitsBetween swl g pl a b).Nodup ∧
      (g.waitForGraph.lookup (edgeKey a b)).getD 0 =
        UInt64.ofNat
          ((waitsBetween swl g pl a b).map fun seg => seg.etime.toNat - seg.stime.toNat).sum := by
  obtain ⟨ready, cutRun, cascadeRun⟩ := (analyze_eq_ok_iff fuel pl swl sl g).mp run
  obtain ⟨nonempty, segmented, empty⟩ := cut_threads_spec (fun _ listed => listed) cutRun
  obtain ⟨_, result⟩ := (cascade_all_run_iff fuel pl ready g).mp cascadeRun
  have done : ∀ pid ∈ pl, pid ∈ pl.reverse := fun pid listed => List.mem_reverse.mpr listed
  have sameWaits : waitsBetween swl g pl a b = waitsBetween swl ready pl a b := by
    rw [← result]
    rfl
  have sameTables : ∀ pid, getSegments g pid = getSegments ready pid := by
    intro pid
    rw [← result]
    rfl
  have entry : g.waitForGraph.lookup (edgeKey a b) =
      if waitsBetween swl ready pl a b = [] then none
      else some (0 + ((waitsBetween swl ready pl a b).map Segment.duration).sum) := by
    rw [← under_edge_eq segmented free a b aNamed bNamed pl done, ← result]
    unfold chargeAll
    change (Tally.addAll _ _ _ ready.waitForGraph).lookup _ = _
    rw [Tally.lookup_add_all, empty]
    rfl
  have forward : ∀ seg ∈ waitsBetween swl ready pl a b, seg.stime ≤ seg.etime := by
    intro seg member
    obtain ⟨pid, listed, _, segs, found, stored, _⟩ :=
      (mem_waits_between swl ready pl a b seg).mp member
    have segments := segmented.cut_eq (done pid listed) found
    exact (thread_blocked_within nonempty sorted segments seg stored).2.1
  have occurs : waitsBetween swl ready pl a b ≠ [] ↔
      ∃ pid ∈ pl, commOf swl pid = a ∧ ∃ segs, getSegments ready pid = some segs ∧
        ∃ seg ∈ blockedList segs, commOf swl seg.waitFor = b := by
    constructor
    · intro counted
      obtain ⟨seg, member⟩ := List.exists_mem_of_ne_nil _ counted
      obtain ⟨pid, listed, named, segs, found, stored, waker⟩ :=
        (mem_waits_between swl ready pl a b seg).mp member
      exact ⟨pid, listed, named, segs, found, seg, stored, waker⟩
    · intro ⟨pid, listed, named, segs, found, seg, stored, waker⟩
      exact List.ne_nil_of_mem ((mem_waits_between swl ready pl a b seg).mpr
        ⟨pid, listed, named, segs, found, stored, waker⟩)
  simp only [sameTables, sameWaits]
  refine ⟨?_, waits_between_nodup segmented a b pl distinct done, ?_⟩
  · rw [← occurs, Finmap.mem_iff, entry]
    by_cases absent : waitsBetween swl ready pl a b = []
    · simp [absent]
    · simp [absent]
  · rw [entry, ← duration_sum _ forward]
    by_cases absent : waitsBetween swl ready pl a b = []
    · rw [if_pos absent, absent]
      rfl
    · rw [if_neg absent, Option.getD_some, zero_add]

theorem relay_waits_accounted :
    ∃ g, analyze 5 [1, 2] relayTrace [] = .ok g ∧
      (edgeKey "server" "disk" ∈ g.waitForGraph ↔
        ∃ pid ∈ [1, 2], commOf relayTrace pid = "server" ∧
          ∃ segs, getSegments g pid = some segs ∧
            ∃ seg ∈ blockedList segs, commOf relayTrace seg.waitFor = "disk") ∧
        (waitsBetween relayTrace g [1, 2] "server" "disk").Nodup ∧
        (g.waitForGraph.lookup (edgeKey "server" "disk")).getD 0 =
          UInt64.ofNat ((waitsBetween relayTrace g [1, 2] "server" "disk").map fun seg =>
            seg.etime.toNat - seg.stime.toNat).sum := by
  obtain ⟨g, run⟩ : ∃ g, analyze 5 [1, 2] relayTrace [] = .ok g := ⟨_, rfl⟩
  exact ⟨g, run, waits_accounted 5 [1, 2] relayTrace [] g "server" "disk" (by decide) (by decide)
    (by decide) run (by decide) (by decide)⟩

end WPerf.Analyzer
