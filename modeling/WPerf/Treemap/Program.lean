import WPerf.Analyzer.Cascade
import WPerf.Treemap.SoftMap

/-!
# The analyzer in memory

`main` over trees in memory: the threads' segments and the softirq table are
red-black trees of pointers. With any pids, trace and softirq records it ends
with the wait-for graph of the model over ordered maps, or with its fault.
-/

namespace WPerf.Treemap

open WPerf.Library WPerf.Analyzer

set_option autoImplicit false

/-- The package variables. `rest` has those that are no tree maps, and its own
tree maps stay empty. -/
structure Memory where
  rest : Globals
  segMap : GoMap Int64 SegmentsInMemory
  softs : SoftsInMemory

structure LoopInMemory where
  ps : PrevState
  segs : SegmentsInMemory

namespace Memory

def breakStep (softs : SoftsInMemory) (pid : Int64) (loop : LoopInMemory) (sw : Switch) :
    Except Fault LoopInMemory :=
  let pt := loop.ps.timestamp
  if sw.type = 0 then
    if sw.prevPid = pid then do
      let ps := if isRunnable sw.prevState then loop.ps.updateToRunnable sw.time
        else loop.ps.updateToStopped sw.time
      match ← softs.getCeilingSoft sw.cpu pt with
      | none => return ⟨ps, ← loop.segs.put pid .running pt sw.time noneId⟩
      | some pointer =>
          let sf ← softs.load pointer
          let stime := sf.stime
          let etime := sf.etime
          if stime < sw.time ∧ etime < sw.time then
            let segs ← loop.segs.put pid .running pt stime noneId
            let segs ← segs.put pid .runnable stime etime noneId
            return ⟨ps, ← segs.put pid .running etime sw.time noneId⟩
          else return ⟨ps, ← loop.segs.put pid .running pt sw.time noneId⟩
    else if sw.nextPid = pid then do
      return ⟨loop.ps.updateToRunning sw.time,
        ← loop.segs.put pid .runnable pt sw.time noneId⟩
    else return loop
  else if sw.type = 1 then
    if sw.nextPid = pid then
      if loop.ps.state ≠ .blocked then return loop
      else if sw.inWhichCtx = process then do
        return ⟨loop.ps.updateToRunnable sw.time,
          ← loop.segs.put pid .blocked pt sw.time sw.prevPid⟩
      else do
        return ⟨loop.ps.updateToRunnable sw.time,
          ← loop.segs.put pid .blocked pt sw.time (-sw.inWhichCtx)⟩
    else return loop
  else return loop

def breakFinish (rest : Globals) (pid : Int64) (traceEtime : UInt64) (segs : SegmentsInMemory) :
    Except Fault SegmentsInMemory :=
  let ps := getPrevState rest pid
  match ps.state with
  | .running => segs.put pid .running ps.timestamp traceEtime noneId
  | .runnable => segs.put pid .runnable ps.timestamp traceEtime noneId
  | _ =>
      match hasExitTime rest pid with
      | some t => do
          let (_, seg) ← segs.floor t
          segs.setETime seg t
      | none => segs.put pid .blocked ps.timestamp traceEtime (-unknown)

def breakIntoSegments (mem : Memory) (pid : Int64) (swl : List Switch) : Except Fault Memory :=
  match swl.getLast?, mem.segMap.lookup pid with
  | none, _ => throw .indexOutOfRange
  | some _, none => throw .nilDereference
  | some last, some segs => do
      let loop ← swl.foldlM (breakStep mem.softs pid) ⟨getPrevState mem.rest pid, segs⟩
      let segs ← breakFinish mem.rest pid last.time loop.segs
      return { mem with segMap := mem.segMap.insert pid segs }

def waitSegsLoop (segs : SegmentsInMemory) (etime : UInt64) :
    Nat → Nat → List Segment → Except Fault (List Segment)
  | 0, _, _ => throw .outOfFuel
  | fuel + 1, pointer, waitSegs => do
      let seg ← segs.load pointer
      let waitSegs := if seg.state = .blocked then waitSegs ++ [seg] else waitSegs
      if etime ≤ seg.etime then
        return waitSegs
      let (_, next) ← segs.ceiling (seg.stime + 1)
      let seg ← segs.load next
      if etime ≤ seg.stime then return waitSegs
      else waitSegsLoop segs etime fuel next waitSegs

def findAllWaitingSegments (fuel : Nat) (mem : Memory) (wakerID : Int64) (etime stime : UInt64) :
    Except Fault (List Segment) :=
  match mem.segMap.lookup wakerID with
  | none => return []
  | some segs => do
      let (_, seg) ← segs.floor stime
      match seg with
      | none => return []
      | some pointer =>
          let _waitSegs ← waitSegsLoop segs etime fuel pointer []
          return []

def cascade : Nat → Memory → Segment → Except Fault Memory
  | 0, _, _ => throw .outOfFuel
  | fuel + 1, mem, w =>
      if w.state ≠ .blocked then return mem
      else do
        let mem := { mem with rest := addWeight mem.rest w.pid w.waitFor w.etime w.stime }
        let segs ← findAllWaitingSegments fuel mem w.waitFor w.etime w.stime
        segs.foldlM (fun mem seg => cascade fuel mem (w.clip seg)) mem

def cascadeThread (fuel : Nat) (mem : Memory) (pid : Int64) : Except Fault Memory :=
  match mem.segMap.lookup pid with
  | none => throw .nilDereference
  | some segs => segs.forEach (fun mem entry => do cascade fuel mem (← segs.load entry.2)) mem

def setUp (pidList : List Int64) (switchList : List Switch) (softList : List Soft) :
    Except Fault Memory := do
  let segMap := pidList.foldl (fun s pid => s.insert pid SegmentsInMemory.new) ∅
  let rest := { Globals.initial with commMap := commMapInit switchList Globals.initial.commMap }
  let rest ← prevStateMapInit pidList switchList rest
  let softs ← SoftsInMemory.init softList
  return ⟨rest, segMap, softs⟩

def analyze (fuel : Nat) (pidList : List Int64) (switchList : List Switch)
    (softList : List Soft) : Except Fault Memory := do
  let mem ← setUp pidList switchList softList
  let mem ← pidList.foldlM (fun mem pid => mem.breakIntoSegments pid switchList) mem
  pidList.foldlM (cascadeThread fuel) mem

end Memory

def SegsBack (s : SegmentsInMemory) (segs : Segments) : Prop :=
  ∃ pointers shape, Backs s pointers shape segs

theorem SegsBack.put {s : SegmentsInMemory} {segs : Segments} (backs : SegsBack s segs)
    (pid : Int64) (state : State) (stime etime : UInt64) (waitFor : Int64) :
    ∃ after, s.put pid state stime etime waitFor = .ok after ∧
      SegsBack after (segs.put pid state stime etime waitFor) := by
  obtain ⟨pointers, shape, backs⟩ := backs
  obtain ⟨after, pointers, shape, ran, later⟩ := backs.put pid state stime etime waitFor
  exact ⟨after, ran, pointers, shape, later⟩

theorem put_loop {s : SegmentsInMemory} {segs : Segments} (backs : SegsBack s segs)
    (ps : PrevState) (pid : Int64) (state : State) (stime etime : UInt64) (waitFor : Int64) :
    ∃ after, (do return ⟨ps, ← s.put pid state stime etime waitFor⟩ : Except Fault LoopInMemory) =
        .ok after ∧
      after.ps = ps ∧ SegsBack after.segs (segs.put pid state stime etime waitFor) := by
  obtain ⟨after, ran, later⟩ := backs.put pid state stime etime waitFor
  exact ⟨⟨ps, after⟩, by rw [ran]; rfl, rfl, later⟩

def LoopBacks (loop : LoopInMemory) (model : Loop) : Prop :=
  loop.ps = model.ps ∧ SegsBack loop.segs model.segs

theorem break_step_backs {softs : SoftsInMemory} {sm : SoftMap} (softsBack : SoftsBack softs sm)
    (pid : Int64) (loop : LoopInMemory) (model : Loop) (sw : Switch)
    (backs : LoopBacks loop model) :
    ∃ after, Memory.breakStep softs pid loop sw = .ok after ∧
      LoopBacks after (breakStep sm pid model sw) := by
  obtain ⟨ps, segs⟩ := loop
  obtain ⟨_, modelSegs⟩ := model
  obtain ⟨rfl, segsBack⟩ := backs
  unfold Memory.breakStep breakStep
  dsimp only
  by_cases switch : sw.type = 0
  · rw [if_pos switch, if_pos switch]
    by_cases out : sw.prevPid = pid
    · rw [if_pos out, if_pos out]
      obtain ⟨pointer, asked, found⟩ := softsBack.get_ceiling_soft sw.cpu ps.timestamp
      rw [asked, Fallible.ok_bind]
      generalize getCeilingSoft sm sw.cpu ps.timestamp = seen at found
      cases found with
      | none => exact put_loop segsBack _ pid _ _ _ _
      | @some pointer sf loaded =>
          simp only [loaded, Fallible.ok_bind]
          by_cases preempted : sf.stime < sw.time ∧ sf.etime < sw.time
          · obtain ⟨first, firstRan, firstBacks⟩ :=
              segsBack.put pid .running ps.timestamp sf.stime noneId
            obtain ⟨second, secondRan, secondBacks⟩ :=
              firstBacks.put pid .runnable sf.stime sf.etime noneId
            simp only [if_pos preempted, firstRan, secondRan, Fallible.ok_bind]
            exact put_loop secondBacks _ pid _ _ _ _
          · simp only [if_neg preempted]
            exact put_loop segsBack _ pid _ _ _ _
    · rw [if_neg out, if_neg out]
      split_ifs
      · exact put_loop segsBack _ pid _ _ _ _
      · exact ⟨_, rfl, rfl, segsBack⟩
  · rw [if_neg switch, if_neg switch]
    split_ifs
    · exact ⟨_, rfl, rfl, segsBack⟩
    · exact put_loop segsBack _ pid _ _ _ _
    · exact put_loop segsBack _ pid _ _ _ _
    · exact ⟨_, rfl, rfl, segsBack⟩
    · exact ⟨_, rfl, rfl, segsBack⟩

/-- `Floor` with the assignment to `ETime` faults on a miss in both. -/
theorem SegsBack.end_at {s : SegmentsInMemory} {segs : Segments} (backs : SegsBack s segs)
    (t : UInt64) :
    Runs.Alike SegsBack (do let (_, seg) ← s.floor t; s.setETime seg t)
      (match segs.floor t with
        | (_, none) => .error .nilDereference
        | (k, some _) => .ok (segs.setETime k t)) := by
  obtain ⟨pointers, shape, backs⟩ := backs
  have alike := OrderedMap.floor_found_alike backs.stored t
  have inTree := fun entry => (OrderedMap.floor_eq_some_iff t pointers entry).mp
  simp only [SegmentsInMemory.floor, backs.refines.floor, Fallible.ok_bind, Segments.floor]
  generalize pointers.floor t = pointed, segs.tm.floor t = seen at alike inTree
  cases alike with
  | nothing => exact .failed Fault.nilDereference
  | entry held =>
      obtain ⟨after, ran, later⟩ := backs.setETime (inTree _ rfl).1 t
      simp only [pure_bind, ran]
      exact .ended ⟨pointers, shape, later⟩

theorem break_finish_alike {s : SegmentsInMemory} {segs : Segments} (backs : SegsBack s segs)
    (rest g : Globals) (sameState : getPrevState rest = getPrevState g)
    (sameExit : hasExitTime rest = hasExitTime g) (pid : Int64) (traceEtime : UInt64) :
    Runs.Alike SegsBack (Memory.breakFinish rest pid traceEtime s)
      (breakFinish g pid traceEtime segs) := by
  have stored : ∀ state stime waitFor, Runs.Alike SegsBack
      (s.put pid state stime traceEtime waitFor)
      (.ok (segs.put pid state stime traceEtime waitFor)) := by
    intro state stime waitFor
    obtain ⟨after, ran, later⟩ := backs.put pid state stime traceEtime waitFor
    rw [ran]
    exact .ended later
  have otherwise : Runs.Alike SegsBack
      (match hasExitTime g pid with
        | some t => do
            let (_, seg) ← s.floor t
            s.setETime seg t
        | none => s.put pid .blocked (getPrevState g pid).timestamp traceEtime (-unknown))
      (match hasExitTime g pid with
        | some t =>
            match segs.floor t with
            | (_, none) => .error .nilDereference
            | (k, some _) => .ok (segs.setETime k t)
        | none => .ok (segs.put pid .blocked (getPrevState g pid).timestamp traceEtime
            (-unknown))) := by
    cases hasExitTime g pid with
    | none => exact stored _ _ _
    | some t => exact backs.end_at t
  unfold Memory.breakFinish breakFinish
  rw [sameState, sameExit]
  dsimp only
  cases (getPrevState g pid).state with
  | running => exact stored _ _ _
  | runnable => exact stored _ _ _
  | blocked => exact otherwise
  | unset => exact otherwise

def withTrees (rest : Globals) (segMap : GoMap Int64 Segments) (sm : SoftMap) : Globals :=
  { rest with segMap := segMap, sm := sm }

/-- The variables in memory and in the model: the same but for the trees, and
each tree of pointers leads to the model's. -/
structure Mirrors (mem : Memory) (g : Globals) : Prop where
  rest : g = withTrees mem.rest g.segMap g.sm
  segs : ∀ pid, Option.Rel SegsBack (mem.segMap.lookup pid) (g.segMap.lookup pid)
  softs : SoftsBack mem.softs g.sm

theorem Mirrors.prev_state {mem : Memory} {g : Globals} (mirrors : Mirrors mem g) :
    getPrevState mem.rest = getPrevState g := by
  rw [mirrors.rest]
  rfl

theorem Mirrors.exit_time {mem : Memory} {g : Globals} (mirrors : Mirrors mem g) :
    hasExitTime mem.rest = hasExitTime g := by
  rw [mirrors.rest]
  rfl

theorem break_into_segments_alike (mem : Memory) (g : Globals) (pid : Int64) (swl : List Switch)
    (mirrors : Mirrors mem g) :
    Runs.Alike Mirrors (mem.breakIntoSegments pid swl) (breakIntoSegments g pid swl) := by
  have own := mirrors.segs pid
  unfold Memory.breakIntoSegments breakIntoSegments getSegments
  generalize mem.segMap.lookup pid = held, g.segMap.lookup pid = seen at own
  cases swl.getLast? with
  | none => exact .failed Fault.indexOutOfRange
  | some last =>
      cases own with
      | none => exact .failed Fault.nilDereference
      | @some segs model segsBack =>
          obtain ⟨loop, ran, sameState, loopBack⟩ := Runs.run_simulates LoopBacks
            (breakStep g.sm pid) (break_step_backs mirrors.softs pid)
            ⟨getPrevState mem.rest pid, segs⟩ ⟨getPrevState g pid, model⟩
            ⟨congrFun mirrors.prev_state pid, segsBack⟩ swl
          have looped : swl.foldlM (Memory.breakStep mem.softs pid)
              ⟨getPrevState mem.rest pid, segs⟩ = .ok loop := ran
          simp only [looped, Fallible.ok_bind]
          refine (break_finish_alike loopBack mem.rest g mirrors.prev_state mirrors.exit_time pid
            last.time).bind fun after later afterBack => .ended ⟨?_, ?_, mirrors.softs⟩
          · have same := mirrors.rest
            rw [same]
            rfl
          · intro other
            dsimp only
            by_cases same : other = pid
            · subst same
              rw [Finmap.lookup_insert, Finmap.lookup_insert]
              exact .some afterBack
            · rw [Finmap.lookup_insert_of_ne _ same, Finmap.lookup_insert_of_ne _ same]
              exact mirrors.segs other

section Walk

variable {s : SegmentsInMemory} {pointers : OrderedMap UInt64 Nat} {shape : Shape UInt64 Nat}
  {segs : Segments} (backs : Backs s pointers shape segs)

include backs

theorem wait_segs_loop_eq (etime : UInt64) (fuel pointer : Nat) (seg : Segment)
    (held : s.segments[pointer]? = some seg) (waitSegs : List Segment) :
    Memory.waitSegsLoop s etime fuel pointer waitSegs = waitSegsLoop segs etime fuel seg waitSegs := by
  induction fuel generalizing pointer seg waitSegs with
  | zero => rfl
  | succ fuel ih =>
      have alike := OrderedMap.ceiling_found_alike backs.stored (seg.stime + 1)
      simp only [Memory.waitSegsLoop, waitSegsLoop, load_held held, Fallible.ok_bind,
        SegmentsInMemory.ceiling, backs.refines.ceiling, Segments.ceiling]
      generalize pointers.ceiling (seg.stime + 1) = pointed,
        segs.tm.ceiling (seg.stime + 1) = seen at alike
      generalize (if seg.state = .blocked then waitSegs ++ [seg] else waitSegs) = collected
      split_ifs with reached
      · rfl
      · cases alike with
        | nothing => rfl
        | entry next =>
            simp only [pure_bind, load_held next, Fallible.ok_bind]
            split_ifs
            · rfl
            · exact ih _ _ next collected

end Walk

theorem find_all_eq (fuel : Nat) (mem : Memory) (g : Globals) (mirrors : Mirrors mem g)
    (wakerID : Int64) (etime stime : UInt64) :
    Memory.findAllWaitingSegments fuel mem wakerID etime stime =
      findAllWaitingSegments fuel g wakerID etime stime := by
  have own := mirrors.segs wakerID
  unfold Memory.findAllWaitingSegments findAllWaitingSegments getSegments
  generalize mem.segMap.lookup wakerID = held, g.segMap.lookup wakerID = seen at own
  cases own with
  | none => rfl
  | @some s segs segsBack =>
      obtain ⟨pointers, shape, backs⟩ := segsBack
      have alike := OrderedMap.floor_found_alike backs.stored stime
      simp only [SegmentsInMemory.floor, backs.refines.floor, Fallible.ok_bind, Segments.floor]
      generalize pointers.floor stime = pointed, segs.tm.floor stime = seen at alike
      cases alike with
      | nothing => rfl
      | entry first => simp only [pure_bind, wait_segs_loop_eq backs etime fuel _ _ first]

theorem add_weight_mirrors {mem : Memory} {g : Globals} (mirrors : Mirrors mem g)
    (waitID wakerID : Int64) (etime stime : UInt64) :
    Mirrors { mem with rest := addWeight mem.rest waitID wakerID etime stime }
      (addWeight g waitID wakerID etime stime) := by
  obtain ⟨segMap, sm, same⟩ : ∃ segMap sm, g = withTrees mem.rest segMap sm :=
    ⟨_, _, mirrors.rest⟩
  have apart : addWeight (withTrees mem.rest segMap sm) waitID wakerID etime stime =
      withTrees (addWeight mem.rest waitID wakerID etime stime) segMap sm := by
    unfold addWeight getComm withTrees
    dsimp only
    split_ifs <;> rfl
  have segs := mirrors.segs
  have softs := mirrors.softs
  rw [same] at segs softs ⊢
  rw [apart]
  exact ⟨rfl, segs, softs⟩

theorem cascade_alike (fuel : Nat) (mem : Memory) (g : Globals) (w : Segment)
    (mirrors : Mirrors mem g) :
    Runs.Alike Mirrors (Memory.cascade fuel mem w) (cascade fuel g w) := by
  induction fuel generalizing mem g w with
  | zero => exact .failed Fault.outOfFuel
  | succ fuel ih =>
      unfold Memory.cascade cascade
      split_ifs with other
      · exact .ended mirrors
      · have charged := add_weight_mirrors mirrors w.pid w.waitFor w.etime w.stime
        simp only [find_all_eq fuel _ _ charged]
        cases findAllWaitingSegments fuel (addWeight g w.pid w.waitFor w.etime w.stime) w.waitFor
            w.etime w.stime with
        | error fault => exact .failed fault
        | ok waitSegs =>
            exact Runs.run_alike Mirrors (fun g seg => cascade fuel g (w.clip seg))
              (fun mem g seg => ih mem g (w.clip seg)) _ _ charged waitSegs

theorem cascade_thread_alike (fuel : Nat) (mem : Memory) (g : Globals) (pid : Int64)
    (mirrors : Mirrors mem g) :
    Runs.Alike Mirrors (Memory.cascadeThread fuel mem pid) (cascadeThread fuel g pid) := by
  have own := mirrors.segs pid
  unfold Memory.cascadeThread cascadeThread getSegments
  generalize mem.segMap.lookup pid = held, g.segMap.lookup pid = seen at own
  cases own with
  | none => exact .failed Fault.nilDereference
  | @some s segs segsBack =>
      obtain ⟨pointers, shape, backs⟩ := segsBack
      dsimp only
      rw [backs.each (Memory.cascade fuel)]
      exact Runs.run_alike Mirrors (cascade fuel) (fun mem g w => cascade_alike fuel mem g w) mem g
        mirrors segs.list

theorem segment_maps_back (pl : List Int64) (trees : GoMap Int64 SegmentsInMemory)
    (maps : GoMap Int64 Segments)
    (backs : ∀ pid, Option.Rel SegsBack (trees.lookup pid) (maps.lookup pid)) (pid : Int64) :
    Option.Rel SegsBack ((pl.foldl (fun s pid => s.insert pid SegmentsInMemory.new) trees).lookup pid)
      ((segmentMapInit pl maps).lookup pid) := by
  induction pl generalizing trees maps with
  | nil => exact backs pid
  | cons listed rest ih =>
      apply ih
      intro other
      by_cases same : other = listed
      · subst same
        rw [Finmap.lookup_insert, Finmap.lookup_insert]
        exact .some ⟨∅, .leaf, new_backs⟩
      · rw [Finmap.lookup_insert_of_ne _ same, Finmap.lookup_insert_of_ne _ same]
        exact backs other

theorem prev_state_init_with_trees (pl : List Int64) (swl : List Switch) (g : Globals)
    (segMap : GoMap Int64 Segments) (sm : SoftMap) :
    prevStateMapInit pl swl (withTrees g segMap sm) =
      (prevStateMapInit pl swl g).map fun g => withTrees g segMap sm := by
  have lifetimes : ∀ g, swl.foldl noteLifetime (withTrees g segMap sm) =
      withTrees (swl.foldl noteLifetime g) segMap sm := by
    intro g
    refine List.foldl_hom (withTrees · segMap sm) fun g v => ?_
    unfold noteLifetime
    split_ifs <;> rfl
  have states : ∀ first last g, pl.foldl (initPrevState first last) (withTrees g segMap sm) =
      withTrees (pl.foldl (initPrevState first last) g) segMap sm :=
    fun first last g => List.foldl_hom (withTrees · segMap sm) fun g v => rfl
  unfold prevStateMapInit
  cases swl.head? with
  | none => rfl
  | some first =>
      cases swl.getLast? with
      | none => rfl
      | some last =>
          dsimp only
          rw [lifetimes, states]
          rfl

theorem set_up_alike (pl : List Int64) (swl : List Switch) (sl : List Soft) :
    Runs.Alike Mirrors (Memory.setUp pl swl sl) (setUp pl swl sl) := by
  obtain ⟨softs, loaded, softsBack⟩ := init_backs sl
  -- both start from the variables with the names of the trace
  obtain ⟨named, memory, model⟩ : ∃ named : Globals,
      Memory.setUp pl swl sl = (do
        let rest ← prevStateMapInit pl swl named
        let softs ← SoftsInMemory.init sl
        return ⟨rest, pl.foldl (fun s pid => s.insert pid SegmentsInMemory.new) ∅, softs⟩) ∧
      setUp pl swl sl = (do
        let g ← prevStateMapInit pl swl (withTrees named (segmentMapInit pl ∅) ∅)
        return { g with sm := softMapInit sl g.sm }) :=
    ⟨{ Globals.initial with commMap := commMapInit swl ∅ }, rfl, rfl⟩
  rw [memory, model, prev_state_init_with_trees]
  cases prevStateMapInit pl swl named with
  | error fault => exact .failed fault
  | ok rest =>
      rw [loaded]
      refine .ended ⟨rfl, segment_maps_back pl ∅ ∅ fun pid => ?_, softsBack⟩
      rw [Finmap.lookup_empty, Finmap.lookup_empty]
      exact .none

theorem analyze_alike (fuel : Nat) (pl : List Int64) (swl : List Switch) (sl : List Soft) :
    Runs.Alike Mirrors (Memory.analyze fuel pl swl sl) (analyze fuel pl swl sl) := by
  refine (set_up_alike pl swl sl).bind fun mem g mirrors => ?_
  have broken := Runs.run_alike Mirrors (fun g pid => breakIntoSegments g pid swl)
    (fun mem g pid => break_into_segments_alike mem g pid swl) mem g mirrors pl
  refine broken.bind fun mem g mirrors => ?_
  exact Runs.run_alike Mirrors (cascadeThread fuel) (cascade_thread_alike fuel) mem g mirrors pl

theorem Mirrors.graph {mem : Memory} {g : Globals} (mirrors : Mirrors mem g) :
    mem.rest.waitForGraph = g.waitForGraph := by
  rw [mirrors.rest]
  rfl

/-- Whatever pids, trace and softirq records the analyzer reads, with its
threads' segments and its softirq table in red-black trees of pointers it ends
with the wait-for graph of the model over ordered maps, or with the same
fault. -/
theorem analyze_in_memory (fuel : Nat) (pl : List Int64) (swl : List Switch) (sl : List Soft) :
    (Memory.analyze fuel pl swl sl).map (fun mem => mem.rest.waitForGraph) =
      (analyze fuel pl swl sl).map Globals.waitForGraph :=
  (analyze_alike fuel pl swl sl).map_eq fun _ _ mirrors => mirrors.graph

end WPerf.Treemap
