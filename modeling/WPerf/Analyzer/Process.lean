import WPerf.Library.Timeline
import WPerf.Analyzer.Events

/-!
# Cutting threads into segments

`lib/process` up to `BreakIntoSegments`: the package's tables, the initial
state of every listed thread, the table of thread names, and the loop that
cuts one thread's time into RUNNING, RUNNABLE and BLOCKED segments. Go panics
are errors of the model.
-/

namespace WPerf.Analyzer

open WPerf.Library

set_option autoImplicit false

/-- The ways a Go call fails to return. `outOfFuel` stands for a loop or a
recursion that the fuel did not finish. -/
inductive Fault where
  | indexOutOfRange
  | nilDereference
  | failedAssertion
  | outOfFuel
deriving DecidableEq, Repr

/-- Thread states. `unset` is the `-1` that `PrevStateMap.Init` stores. -/
inductive State where
  | running
  | runnable
  | blocked
  | unset
deriving DecidableEq, Repr

def process : Int64 := 12

def unknown : Int64 := 13

def noneId : Int64 := 0

structure PrevState where
  timestamp : UInt64
  state : State
deriving DecidableEq, Repr

def PrevState.updateToRunning (p : PrevState) (time : UInt64) : PrevState :=
  { p with state := .running, timestamp := time }

def PrevState.updateToRunnable (p : PrevState) (time : UInt64) : PrevState :=
  { p with state := .runnable, timestamp := time }

def PrevState.updateToStopped (p : PrevState) (time : UInt64) : PrevState :=
  { p with state := .blocked, timestamp := time }

def isRunnable (state : UInt64) : Bool := state == 0

structure Segment where
  pid : Int64
  state : State
  stime : UInt64
  etime : UInt64
  waitFor : Int64
deriving DecidableEq, Repr

/-- A thread's segments. `Put` stores a segment under its start time, and no
operation changes a start time, so every key is the start of its segment. -/
@[ext]
structure Segments where
  tm : OrderedMap UInt64 Segment
  keyed : ∀ entry ∈ tm.entries, entry.2.stime = entry.1

namespace Segments

def new : Segments := ⟨∅, by simp⟩

def list (segs : Segments) : List Segment := segs.tm.values

def store (segs : Segments) (seg : Segment) : Segments where
  tm := segs.tm.put seg.stime seg
  keyed := by
    intro entry member
    rcases (OrderedMap.mem_put seg.stime seg segs.tm entry).mp member with placed | ⟨old, _⟩
    · rw [placed]
    · exact segs.keyed entry old

def put (segs : Segments) (pid : Int64) (state : State) (stime etime : UInt64)
    (waitFor : Int64) : Segments :=
  segs.store ⟨pid, state, stime, etime, waitFor⟩

def floor (segs : Segments) (stime : UInt64) : UInt64 × Option Segment :=
  match segs.tm.floor stime with
  | none => (0, none)
  | some (k, v) => (k, some v)

/-- `Segments.Ceiling`. On a miss the tree map returns two nil interfaces and
the assertion `k.(uint64)` panics. -/
def ceiling (segs : Segments) (stime : UInt64) : Except Fault (UInt64 × Option Segment) :=
  match segs.tm.ceiling stime with
  | none => .error .failedAssertion
  | some (k, v) => .ok (k, some v)

/-- The assignment `seg.ETime = t` through the pointer stored under `key`. -/
def setETime (segs : Segments) (key t : UInt64) : Segments where
  tm := segs.tm.adjust key fun seg => { seg with etime := t }
  keyed := by
    intro entry member
    rcases (OrderedMap.mem_adjust key _ segs.tm entry).mp member with ⟨old, _⟩ | ⟨seg, old, rfl⟩
    · exact segs.keyed entry old
    · exact segs.keyed (key, seg) old

end Segments

structure Globals where
  createTimeList : GoMap Int64 UInt64
  exitTimeList : GoMap Int64 UInt64
  prevStateMap : GoMap Int64 PrevState
  segMap : GoMap Int64 Segments
  commMap : GoMap Int64 String
  waitForGraph : GoMap String UInt64
  sm : SoftMap

def Globals.initial : Globals where
  createTimeList := ∅
  exitTimeList := ∅
  prevStateMap := ∅
  segMap := ∅
  commMap := ∅
  waitForGraph := ∅
  sm := ∅

/-- Whole-trace pass of `PrevStateMap.Init`; the last event of a pid wins. -/
def noteLifetime (g : Globals) (v : Switch) : Globals :=
  if v.type = 2 then
    { g with createTimeList := g.createTimeList.insert v.nextPid v.time }
  else if v.type = 3 then
    { g with exitTimeList := g.exitTimeList.insert v.prevPid v.time }
  else g

/-- Per-pid pass of `PrevStateMap.Init`: two assignments, the second over the
first. -/
def initPrevState (traceSTime traceETime : UInt64) (g : Globals) (v : Int64) : Globals :=
  let p : GoMap Int64 PrevState := match g.createTimeList.lookup v with
    | some t => g.prevStateMap.insert v ⟨t, .unset⟩
    | none => g.prevStateMap.insert v ⟨traceSTime, .unset⟩
  let p : GoMap Int64 PrevState := match g.exitTimeList.lookup v with
    | some t => p.insert v ⟨t, .unset⟩
    | none => p.insert v ⟨traceETime, .unset⟩
  { g with prevStateMap := p }

def prevStateMapInit (pl : List Int64) (sl : List Switch) (g : Globals) : Except Fault Globals :=
  match sl.head?, sl.getLast? with
  | some first, some last =>
      .ok (pl.foldl (initPrevState first.time last.time) (sl.foldl noteLifetime g))
  | _, _ => .error .indexOutOfRange

def getPrevState (g : Globals) (pid : Int64) : PrevState :=
  (g.prevStateMap.lookup pid).getD { timestamp := 0, state := .running }

def hasExitTime (g : Globals) (pid : Int64) : Option UInt64 := g.exitTimeList.lookup pid

def commMapNote (c : GoMap Int64 String) (v : Switch) : GoMap Int64 String :=
  let c := if v.prevPid ∈ c then c else c.insert v.prevPid v.prevComm
  if v.nextPid ∈ c then c else c.insert v.nextPid v.nextComm

def commMapInit (sl : List Switch) (c : GoMap Int64 String) : GoMap Int64 String :=
  sl.foldl commMapNote c

def getComm (g : Globals) (pid : Int64) : String := (g.commMap.lookup pid).getD ""

def segmentMapInit (pidList : List Int64) (s : GoMap Int64 Segments) : GoMap Int64 Segments :=
  pidList.foldl (fun s pid => s.insert pid Segments.new) s

def getSegments (g : Globals) (pid : Int64) : Option Segments := g.segMap.lookup pid

structure Loop where
  ps : PrevState
  segs : Segments

def breakStep (sm : SoftMap) (pid : Int64) (loop : Loop) (sw : Switch) : Loop :=
  let pt := loop.ps.timestamp
  if sw.type = 0 then
    if sw.prevPid = pid then
      let ps := if isRunnable sw.prevState then loop.ps.updateToRunnable sw.time
        else loop.ps.updateToStopped sw.time
      match getCeilingSoft sm sw.cpu pt with
      | none => ⟨ps, loop.segs.put pid .running pt sw.time noneId⟩
      | some sf =>
          let stime := sf.stime
          let etime := sf.etime
          if stime < sw.time ∧ etime < sw.time then
            let segs := loop.segs.put pid .running pt stime noneId
            let segs := segs.put pid .runnable stime etime noneId
            ⟨ps, segs.put pid .running etime sw.time noneId⟩
          else ⟨ps, loop.segs.put pid .running pt sw.time noneId⟩
    else if sw.nextPid = pid then
      ⟨loop.ps.updateToRunning sw.time, loop.segs.put pid .runnable pt sw.time noneId⟩
    else loop
  else if sw.type = 1 then
    if sw.nextPid = pid then
      if loop.ps.state ≠ .blocked then loop
      else if sw.inWhichCtx = process then
        ⟨loop.ps.updateToRunnable sw.time, loop.segs.put pid .blocked pt sw.time sw.prevPid⟩
      else
        ⟨loop.ps.updateToRunnable sw.time, loop.segs.put pid .blocked pt sw.time (-sw.inWhichCtx)⟩
    else loop
  else loop

/-- The code after the loop. `ps` is read again from the table, which the loop
does not write, so the loop's own `ps` is not a parameter here. -/
def breakFinish (g : Globals) (pid : Int64) (traceEtime : UInt64) (segs : Segments) :
    Except Fault Segments :=
  let ps := getPrevState g pid
  match ps.state with
  | .running => .ok (segs.put pid .running ps.timestamp traceEtime noneId)
  | .runnable => .ok (segs.put pid .runnable ps.timestamp traceEtime noneId)
  | _ =>
      match hasExitTime g pid with
      | some t =>
          match segs.floor t with
          | (_, none) => .error .nilDereference
          | (k, some _) => .ok (segs.setETime k t)
      | none => .ok (segs.put pid .blocked ps.timestamp traceEtime (-unknown))

/-- For a pid that was never listed `segs` is nil, and every path through the
function ends in a `Put` on it. -/
def breakIntoSegments (g : Globals) (pid : Int64) (swl : List Switch) : Except Fault Globals :=
  match swl.getLast?, getSegments g pid with
  | none, _ => .error .indexOutOfRange
  | some _, none => .error .nilDereference
  | some last, some segs => do
      let loop := swl.foldl (breakStep g.sm pid) ⟨getPrevState g pid, segs⟩
      let segs ← breakFinish g pid last.time loop.segs
      return { g with segMap := g.segMap.insert pid segs }

end WPerf.Analyzer
