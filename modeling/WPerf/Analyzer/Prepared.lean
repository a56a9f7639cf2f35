import WPerf.Analyzer.Thread

/-!
# The tables before the first thread is cut

`PrevStateMap.Init` gives every listed thread the state -1 at its exit time or
the end of the trace: the creation time and the trace start it stores first
are overwritten by its second assignment. `CommMap.Init` keeps the first name
of every pid. One spec lemma for each way `BreakIntoSegments` can end follows.
-/

namespace WPerf.Analyzer

open WPerf.Library

set_option autoImplicit false

def exitTime (pid : Int64) (swl : List Switch) : Option UInt64 :=
  swl.foldl (fun t v => if v.type = 3 ∧ v.prevPid = pid then some v.time else t) none

def traceStart (swl : List Switch) : UInt64 := (swl.head?.map Switch.time).getD 0

def traceEnd (swl : List Switch) : UInt64 := (swl.getLast?.map Switch.time).getD 0

/-- The timestamp `PrevStateMap.Init` leaves for a listed thread. -/
def initialTime (pid : Int64) (swl : List Switch) : UInt64 :=
  (exitTime pid swl).getD (traceEnd swl)

def firstComm (pid : Int64) : List Switch → Option String
  | [] => none
  | v :: rest =>
      if v.prevPid = pid then some v.prevComm
      else if v.nextPid = pid then some v.nextComm
      else firstComm pid rest

def Exits (pid : Int64) (swl : List Switch) : Prop :=
  ∃ v ∈ swl, v.type = 3 ∧ v.prevPid = pid

def TimeSorted (swl : List Switch) : Prop :=
  swl.Pairwise fun earlier later => earlier.time ≤ later.time

instance (pid : Int64) (swl : List Switch) : Decidable (Exits pid swl) :=
  inferInstanceAs (Decidable (∃ v ∈ swl, _))

instance (swl : List Switch) : Decidable (TimeSorted swl) :=
  inferInstanceAs (Decidable (List.Pairwise _ _))

theorem exit_time_cases (pid : Int64) (swl : List Switch) :
    (exitTime pid swl = none ∧ ¬Exits pid swl) ∨
      ∃ v ∈ swl, v.type = 3 ∧ v.prevPid = pid ∧ exitTime pid swl = some v.time := by
  induction swl using List.reverseRecOn with
  | nil => exact Or.inl ⟨rfl, by simp [Exits]⟩
  | append_singleton front last ih =>
      have split : exitTime pid (front ++ [last]) =
          if last.type = 3 ∧ last.prevPid = pid then some last.time else exitTime pid front := by
        simp [exitTime]
      rw [split]
      by_cases exits : last.type = 3 ∧ last.prevPid = pid
      · rw [if_pos exits]
        exact Or.inr ⟨last, by simp, exits.1, exits.2, rfl⟩
      · rw [if_neg exits]
        rcases ih with ⟨absent, never⟩ | ⟨v, member, exit, same, found⟩
        · refine Or.inl ⟨absent, ?_⟩
          intro ⟨v, member, exit⟩
          rcases List.mem_append.mp member with earlier | atEnd
          · exact never ⟨v, earlier, exit⟩
          · rw [List.mem_singleton.mp atEnd] at exit
            exact exits exit
        · exact Or.inr ⟨v, by simp [member], exit, same, found⟩

theorem exit_time_none_iff (pid : Int64) (swl : List Switch) :
    exitTime pid swl = none ↔ ¬Exits pid swl := by
  rcases exit_time_cases pid swl with ⟨absent, never⟩ | ⟨v, member, exit, same, found⟩
  · exact iff_of_true absent never
  · apply iff_of_false
    · rw [found]
      exact Option.some_ne_none v.time
    · exact fun never => never ⟨v, member, exit, same⟩

theorem trace_ends {swl : List Switch} (nonempty : swl ≠ []) :
    ∃ first last, swl.head? = some first ∧ swl.getLast? = some last ∧
      traceStart swl = first.time ∧ traceEnd swl = last.time := by
  obtain ⟨first, atStart⟩ : ∃ first, swl.head? = some first :=
    Option.isSome_iff_exists.mp (List.isSome_head?.mpr nonempty)
  obtain ⟨last, atEnd⟩ : ∃ last, swl.getLast? = some last :=
    Option.isSome_iff_exists.mp (List.getLast?_isSome.mpr nonempty)
  refine ⟨first, last, atStart, atEnd, ?_, ?_⟩
  · simp [traceStart, atStart]
  · simp [traceEnd, atEnd]

theorem time_within_trace {swl : List Switch} (sorted : TimeSorted swl) (v : Switch)
    (member : v ∈ swl) : traceStart swl ≤ v.time ∧ v.time ≤ traceEnd swl := by
  constructor
  · cases swl with
    | nil => simp at member
    | cons first rest =>
        change first.time ≤ v.time
        rcases List.mem_cons.mp member with rfl | later
        · exact le_refl _
        · exact (List.pairwise_cons.mp sorted).1 v later
  · rcases List.eq_nil_or_concat swl with rfl | ⟨front, last, rfl⟩
    · simp at member
    · have final : traceEnd (front.concat last) = last.time := by
        simp [traceEnd]
      rw [final]
      rw [List.concat_eq_append] at member sorted
      rcases List.mem_append.mp member with earlier | atEnd
      · exact (List.pairwise_append.mp sorted).2.2 v earlier last (by simp)
      · rw [List.mem_singleton.mp atEnd]

theorem trace_window {swl : List Switch} (nonempty : swl ≠ []) (sorted : TimeSorted swl) :
    traceStart swl ≤ traceEnd swl := by
  obtain ⟨first, _, atStart, _⟩ := trace_ends nonempty
  obtain ⟨low, high⟩ := time_within_trace sorted first (List.mem_of_head? atStart)
  exact low.trans high

theorem initial_time_within {swl : List Switch} (nonempty : swl ≠ []) (sorted : TimeSorted swl)
    (pid : Int64) : traceStart swl ≤ initialTime pid swl ∧ initialTime pid swl ≤ traceEnd swl := by
  unfold initialTime
  rcases exit_time_cases pid swl with ⟨absent, _⟩ | ⟨v, member, _, _, exit⟩
  · rw [absent]
    exact ⟨trace_window nonempty sorted, le_refl _⟩
  · rw [exit]
    exact time_within_trace sorted v member

/-- The tables that the loops of `main` read and do not write. -/
structure Prepared (pl : List Int64) (swl : List Switch) (sl : List Soft) (g : Globals) :
    Prop where
  softirqs : g.sm = softMapInit sl ∅
  exits : ∀ pid, hasExitTime g pid = exitTime pid swl
  starts : ∀ pid ∈ pl, getPrevState g pid = ⟨initialTime pid swl, .unset⟩
  names : ∀ pid, getComm g pid = (firstComm pid swl).getD ""

theorem note_lifetimes_frame (swl : List Switch) (g : Globals) :
    swl.foldl noteLifetime g =
      { g with
        createTimeList := (swl.foldl noteLifetime g).createTimeList
        exitTimeList := (swl.foldl noteLifetime g).exitTimeList } := by
  induction swl generalizing g with
  | nil => rfl
  | cons v rest ih =>
      have one : noteLifetime g v =
          { g with
            createTimeList := (noteLifetime g v).createTimeList
            exitTimeList := (noteLifetime g v).exitTimeList } := by
        unfold noteLifetime
        split_ifs <;> rfl
      have tail := ih (noteLifetime g v)
      rw [List.foldl_cons, tail, one]

theorem note_lifetime_exit (pid : Int64) (g : Globals) (v : Switch) :
    hasExitTime (noteLifetime g v) pid =
      if v.type = 3 ∧ v.prevPid = pid then some v.time else hasExitTime g pid := by
  unfold noteLifetime hasExitTime
  by_cases creates : v.type = 2
  · have notExit : ¬(v.type = 3 ∧ v.prevPid = pid) := by
      rw [creates]
      exact fun both => absurd both.1 (by decide)
    rw [if_pos creates, if_neg notExit]
  · rw [if_neg creates]
    by_cases exits : v.type = 3
    · rw [if_pos exits]
      by_cases same : v.prevPid = pid
      · rw [if_pos ⟨exits, same⟩, same]
        exact Finmap.lookup_insert g.exitTimeList
      · rw [if_neg fun both => same both.2]
        exact Finmap.lookup_insert_of_ne g.exitTimeList fun equal => same equal.symm
    · rw [if_neg exits, if_neg fun both => exits both.1]

theorem note_lifetimes_exit (pid : Int64) (swl : List Switch) (g : Globals)
    (fresh : hasExitTime g pid = none) :
    hasExitTime (swl.foldl noteLifetime g) pid = exitTime pid swl := by
  have observed : swl.foldl
      (fun t v => if v.type = 3 ∧ v.prevPid = pid then some v.time else t) (hasExitTime g pid) =
        hasExitTime (swl.foldl noteLifetime g) pid :=
    List.foldl_hom (fun g => hasExitTime g pid) fun g v => (note_lifetime_exit pid g v).symm
  rw [← observed, fresh]
  rfl

theorem insert_missing_lookup (pid key : Int64) (name : String) (c : GoMap Int64 String) :
    (if key ∈ c then c else c.insert key name).lookup pid =
      (c.lookup pid).or (if key = pid then some name else none) := by
  by_cases known : key ∈ c
  · rw [if_pos known]
    by_cases same : key = pid
    · rcases Finmap.mem_iff.mp known with ⟨old, found⟩
      rw [← same, found]
      rfl
    · rw [if_neg same, Option.or_none]
  · rw [if_neg known]
    by_cases same : key = pid
    · have missing : c.lookup pid = none := Finmap.lookup_eq_none.mpr (by rw [← same]; exact known)
      rw [if_pos same, missing, ← same]
      exact Finmap.lookup_insert c
    · rw [if_neg same, Option.or_none]
      exact Finmap.lookup_insert_of_ne c fun equal => same equal.symm

theorem comm_map_note_lookup (pid : Int64) (c : GoMap Int64 String) (v : Switch) :
    (commMapNote c v).lookup pid = (c.lookup pid).or (firstComm pid [v]) := by
  unfold commMapNote
  rw [insert_missing_lookup, insert_missing_lookup, Option.or_assoc]
  congr 1
  unfold firstComm
  by_cases prev : v.prevPid = pid
  · rw [if_pos prev, if_pos prev]
    rfl
  · rw [if_neg prev, if_neg prev]
    by_cases next : v.nextPid = pid
    · rw [if_pos next, if_pos next]
      rfl
    · rw [if_neg next, if_neg next]
      rfl

theorem first_comm_cons (pid : Int64) (v : Switch) (rest : List Switch) :
    firstComm pid (v :: rest) = (firstComm pid [v]).or (firstComm pid rest) := by
  simp only [firstComm]
  split_ifs <;> rfl

theorem comm_map_init_lookup (pid : Int64) (swl : List Switch) (c : GoMap Int64 String) :
    (commMapInit swl c).lookup pid = (c.lookup pid).or (firstComm pid swl) := by
  induction swl generalizing c with
  | nil => exact Option.or_none.symm
  | cons v rest ih =>
      have unfolded : commMapInit (v :: rest) c = commMapInit rest (commMapNote c v) := rfl
      rw [unfolded, ih, comm_map_note_lookup, Option.or_assoc, ← first_comm_cons]

/-- The second assignment wins: exit time if there is one, else trace end. -/
theorem init_prev_state_lookup (first last : UInt64) (g : Globals) (v pid : Int64) :
    (initPrevState first last g v).prevStateMap.lookup pid =
      if pid = v then some ⟨(hasExitTime g v).getD last, .unset⟩
      else g.prevStateMap.lookup pid := by
  unfold initPrevState hasExitTime
  dsimp only
  by_cases same : pid = v
  · rw [if_pos same, same]
    cases exit : g.exitTimeList.lookup v <;> exact Finmap.lookup_insert _
  · rw [if_neg same]
    cases exit : g.exitTimeList.lookup v <;> cases create : g.createTimeList.lookup v <;>
      simp only [Finmap.lookup_insert_of_ne _ same]

theorem init_prev_states_frame (first last : UInt64) (pl : List Int64) (g : Globals) :
    pl.foldl (initPrevState first last) g =
      { g with prevStateMap := (pl.foldl (initPrevState first last) g).prevStateMap } := by
  induction pl generalizing g with
  | nil => rfl
  | cons v rest ih => exact ih (initPrevState first last g v)

theorem init_prev_states_lookup (first last : UInt64) (pl : List Int64) (g : Globals)
    (pid : Int64) :
    (pl.foldl (initPrevState first last) g).prevStateMap.lookup pid =
      if pid ∈ pl then some ⟨(hasExitTime g pid).getD last, .unset⟩
      else g.prevStateMap.lookup pid := by
  induction pl generalizing g with
  | nil => rfl
  | cons v rest ih =>
      have sameExit : hasExitTime (initPrevState first last g v) pid = hasExitTime g pid := rfl
      rw [List.foldl_cons, ih, init_prev_state_lookup, sameExit]
      by_cases later : pid ∈ rest
      · rw [if_pos later, if_pos (List.mem_cons_of_mem v later)]
      · rw [if_neg later]
        by_cases same : pid = v
        · rw [if_pos same, if_pos (by simp [same]), same]
        · rw [if_neg same, if_neg (by simp [same, later])]

theorem segment_map_init_lookup (pl : List Int64) (s : GoMap Int64 Segments) (pid : Int64) :
    (segmentMapInit pl s).lookup pid =
      if pid ∈ pl then some Segments.new else s.lookup pid := by
  induction pl generalizing s with
  | nil => rfl
  | cons v rest ih =>
      have unfolded : segmentMapInit (v :: rest) s = segmentMapInit rest (s.insert v .new) := rfl
      rw [unfolded, ih]
      by_cases later : pid ∈ rest
      · rw [if_pos later, if_pos (List.mem_cons_of_mem v later)]
      · rw [if_neg later]
        by_cases same : pid = v
        · rw [if_pos (by simp [same]), same]
          exact Finmap.lookup_insert s
        · rw [if_neg (by simp [same, later])]
          exact Finmap.lookup_insert_of_ne s same

/-- Set-up fails only on an empty trace. -/
theorem set_up_spec (pl : List Int64) (swl : List Switch) (sl : List Soft) (nonempty : swl ≠ []) :
    ∃ g, setUp pl swl sl = .ok g ∧ Prepared pl swl sl g ∧ g.waitForGraph = ∅ ∧
      ∀ pid, getSegments g pid = if pid ∈ pl then some Segments.new else none := by
  obtain ⟨first, last, atStart, atEnd, _, final⟩ := trace_ends nonempty
  let named : Globals :=
    { Globals.initial with
      segMap := segmentMapInit pl ∅
      commMap := commMapInit swl ∅ }
  let noted := swl.foldl noteLifetime named
  let started := pl.foldl (initPrevState first.time last.time) noted
  -- the two passes write the lifetimes and the initial states and nothing else
  have frame : started =
      { named with
        createTimeList := noted.createTimeList
        exitTimeList := noted.exitTimeList
        prevStateMap := started.prevStateMap } := by
    calc started = { noted with prevStateMap := started.prevStateMap } :=
          init_prev_states_frame first.time last.time pl noted
      _ = _ := congrArg (fun g : Globals => { g with prevStateMap := started.prevStateMap })
          (note_lifetimes_frame swl named)
  have noteExit : ∀ pid, hasExitTime noted pid = exitTime pid swl :=
    fun pid => note_lifetimes_exit pid swl named rfl
  refine ⟨{ started with sm := softMapInit sl started.sm }, ?_, ?_, ?_, ?_⟩
  · simp only [setUp, prevStateMapInit, atStart, atEnd]
    rfl
  · constructor
    · rw [frame]
      rfl
    · intro pid
      rw [frame]
      exact noteExit pid
    · intro pid listed
      have found := init_prev_states_lookup first.time last.time pl noted pid
      rw [if_pos listed] at found
      change (started.prevStateMap.lookup pid).getD _ = _
      rw [found, noteExit, Option.getD_some, initialTime, final]
    · intro pid
      rw [frame]
      change ((commMapInit swl ∅).lookup pid).getD "" = _
      rw [comm_map_init_lookup]
      rfl
  · rw [frame]
    rfl
  · intro pid
    rw [frame]
    change (segmentMapInit pl ∅).lookup pid = _
    rw [segment_map_init_lookup]
    rfl

end WPerf.Analyzer
