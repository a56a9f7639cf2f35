import WPerf.Analyzer.Process

/-!
# Charging waits to wakers

The second half of `lib/process` and the two loops of `main`: every BLOCKED
segment adds its length to an edge of the wait-for graph and looks up the
waits of its waker. The walk and the recursion take fuel, since nothing in
the source bounds them.
-/

namespace WPerf.Analyzer

open WPerf.Library

set_option autoImplicit false

def edgeKey (waitComm wakerComm : String) : String := waitComm ++ "," ++ wakerComm ++ ","

def addWeight (g : Globals) (waitID wakerID : Int64) (etime stime : UInt64) : Globals :=
  let waitComm := getComm g waitID
  let wakerComm := getComm g wakerID
  if waitComm = "" ∨ wakerComm = "" then g
  else
    let k := edgeKey waitComm wakerComm
    let graph := if k ∈ g.waitForGraph then g.waitForGraph else g.waitForGraph.insert k 0
    { g with waitForGraph := graph.insert k ((graph.lookup k).getD 0 + (etime - stime)) }

/-- The loop of `findAllWaitingSegments`: the value of `waitSegs` at its exit.
`seg.STime + 1` wraps. -/
def waitSegsLoop (segs : Segments) (etime : UInt64) :
    Nat → Segment → List Segment → Except Fault (List Segment)
  | 0, _, _ => .error .outOfFuel
  | fuel + 1, seg, waitSegs => do
      let waitSegs := if seg.state = .blocked then waitSegs ++ [seg] else waitSegs
      if etime ≤ seg.etime then
        return waitSegs
      let (_, next) ← segs.ceiling (seg.stime + 1)
      match next with
      | none => return waitSegs
      | some seg =>
          if etime ≤ seg.stime then return waitSegs
          else waitSegsLoop segs etime fuel seg waitSegs

/-- The source collects `waitSegs` and returns nil. -/
def findAllWaitingSegments (fuel : Nat) (g : Globals) (wakerID : Int64) (etime stime : UInt64) :
    Except Fault (List Segment) :=
  match getSegments g wakerID with
  | none => return []
  | some segs =>
      match (segs.floor stime).2 with
      | none => return []
      | some seg => do
          let _waitSegs ← waitSegsLoop segs etime fuel seg []
          return []

def Segment.clip (w seg : Segment) : Segment :=
  let seg := if seg.stime < w.stime then { seg with stime := w.stime } else seg
  if w.etime < seg.etime then { seg with etime := w.etime } else seg

def cascade : Nat → Globals → Segment → Except Fault Globals
  | 0, _, _ => .error .outOfFuel
  | fuel + 1, g, w =>
      if w.state ≠ .blocked then return g
      else do
        let g := addWeight g w.pid w.waitFor w.etime w.stime
        let segs ← findAllWaitingSegments fuel g w.waitFor w.etime w.stime
        segs.foldlM (fun g seg => cascade fuel g (w.clip seg)) g

def cascadeThread (fuel : Nat) (g : Globals) (pid : Int64) : Except Fault Globals :=
  match getSegments g pid with
  | none => .error .nilDereference
  | some segs => segs.list.foldlM (cascade fuel) g

/-- `main` up to its loops: `Pids`, `InitCommMap`, `InitPrevStates` and
`InitSoftContainer` on the loaded files. -/
def setUp (pidList : List Int64) (switchList : List Switch) (softList : List Soft) :
    Except Fault Globals :=
  let g := { Globals.initial with segMap := segmentMapInit pidList Globals.initial.segMap }
  let g := { g with commMap := commMapInit switchList g.commMap }
  do
    let g ← prevStateMapInit pidList switchList g
    return { g with sm := softMapInit softList g.sm }

def breakAll (switchList : List Switch) (pidList : List Int64) (g : Globals) :
    Except Fault Globals :=
  pidList.foldlM (fun g pid => breakIntoSegments g pid switchList) g

def cascadeAll (fuel : Nat) (pidList : List Int64) (g : Globals) : Except Fault Globals :=
  pidList.foldlM (cascadeThread fuel) g

def analyze (fuel : Nat) (pidList : List Int64) (switchList : List Switch) (softList : List Soft) :
    Except Fault Globals := do
  let g ← setUp pidList switchList softList
  let g ← breakAll switchList pidList g
  cascadeAll fuel pidList g

end WPerf.Analyzer
