import WPerf.Module.Kernel

/-!
# The disk_utils event

The table of disk names and their counters, the probe that counts, and the
operations behind the event's three files. Every access to the table is
checked against its size.
-/

namespace WPerf.Module

open WPerf.Library

set_option autoImplicit false

def maxDiskNum : Nat := 20

def maxDnameSize : Nat := 20

abbrev Row := Vector Char maxDnameSize

/-- The static data of the event, and whether `part_round_stats_jp` is armed. -/
structure DiskUtils where
  dnames : Vector Row maxDiskNum
  dutils : Vector Int64 maxDiskNum
  didx : Nat
  denabled : Bool
  armed : Bool
deriving DecidableEq, Repr

/-- What `part_round_stats` reads of a partition; `inFlight` is what
`part_in_flight` returns for it. -/
structure HdStruct where
  partno : Int32
  name : List Char
  stamp : UInt64
  inFlight : Int32
deriving DecidableEq, Repr

/-- A call of `part_round_stats` at some time. `part0` is the whole disk the
partition belongs to. -/
structure PartHit where
  jiffies : UInt64
  part : HdStruct
  part0 : HdStruct
deriving DecidableEq, Repr

def timeAfter (a b : UInt64) : Bool := decide ((b - a).toInt64 < 0)

/-- `strncpy(row, token, strlen(token) + 1)`: the rest of the row is kept. -/
def strncpyRow (row : Row) (token : List Char) : Row :=
  Vector.ofFn fun i =>
    if i < token.length + 1 then (token ++ ['\x00']).getD i '\x00' else row.get i

namespace DiskUtils

def init : DiskUtils where
  dnames := Vector.replicate maxDiskNum (Vector.replicate maxDnameSize '\x00')
  dutils := Vector.replicate maxDiskNum 0
  didx := 0
  denabled := false
  armed := false

def enableJprobe (s : DiskUtils) : DiskUtils := { s with armed := true }

def disableJprobe (s : DiskUtils) : DiskUtils := { s with armed := false }

section Memory

variable (s : DiskUtils)

def loadRow (i : Nat) : Except Fault Row :=
  if bound : i < maxDiskNum then .ok s.dnames[i] else .error .outOfBounds

def loadUtil (i : Nat) : Except Fault Int64 :=
  if bound : i < maxDiskNum then .ok s.dutils[i] else .error .outOfBounds

def storeUtil (i : Nat) (value : Int64) : Except Fault DiskUtils :=
  if bound : i < maxDiskNum then .ok { s with dutils := s.dutils.set i value }
  else .error .outOfBounds

def storeName (token : List Char) : Except Fault DiskUtils :=
  if bound : s.didx < maxDiskNum then
    if token.length + 1 ≤ maxDnameSize then
      .ok { s with
        dnames := s.dnames.set s.didx (strncpyRow s.dnames[s.didx] token)
        didx := s.didx + 1 }
    else .error .outOfBounds
  else .error .outOfBounds

/-- The text `%s` prints of a row, which must end inside it. -/
def loadName (i : Nat) : Except Fault (List Char) := do
  let row ← s.loadRow i
  if '\x00' ∈ row.toList then return cString row.toList else .error .outOfBounds

end Memory

def devIdxFrom (s : DiskUtils) (dname : List Char) : Nat → Nat → Except Fault (Option Nat)
  | 0, _ => .ok none
  | left + 1, i => do
      let row ← s.loadRow i
      if sameStrncmp dname row.toList maxDnameSize then return some i
      else s.devIdxFrom dname left (i + 1)

def devIdx (s : DiskUtils) (dname : List Char) : Except Fault (Option Nat) :=
  s.devIdxFrom dname s.didx 0

def onPartRoundStatsEnt (hit : PartHit) (s : DiskUtils) : Except Fault DiskUtils := do
  let now := hit.jiffies
  let part := if hit.part.partno ≠ 0 then hit.part0 else hit.part
  match ← s.devIdx part.name with
  | none => return s
  | some idx =>
      if timeAfter now part.stamp && part.inFlight != 0 then do
        let util ← s.loadUtil idx
        s.storeUtil idx (util.toUInt64 + (now - part.stamp)).toInt64
      else return s

def dutilsEnableRead (s : DiskUtils) : Bool := s.denabled

def dutilsEnableWrite (value : Bool) (s : DiskUtils) : Except Fault DiskUtils :=
  let s := { s with denabled := value }
  match s.denabled with
  | false => do
      let s := s.disableJprobe
      let s ← (List.range s.didx).foldlM (fun s i => s.storeUtil i 0) s
      return { s with didx := 0 }
  | true => .ok s.enableJprobe

def dutilsFilterRead (s : DiskUtils) (seq : TraceSeq) : Except Fault TraceSeq := do
  if s.didx = 0 then return seq.puts "none\n".toList
  let names ← (List.range s.didx).mapM s.loadName
  return seq.printList names

def storeTokens : List (List Char) → DiskUtils → Except Fault (Except Errno Unit × DiskUtils)
  | [], s => .ok (.ok (), s)
  | token :: rest, s =>
      if token = [] then storeTokens rest s
      else if token.length + 1 > maxDnameSize then .ok (.error .einval, s)
      else do
        let s ← s.storeName token
        storeTokens rest s

def dutilsFilterWrite (dup : Bool) (data : List Char) (s : DiskUtils) :
    Except Fault (Except Errno Unit × DiskUtils) :=
  if ¬dup then .ok (.error .enomem, s)
  else do
    let text := strstrip data
    let s := { s with didx := 0 }
    let s := s.disableJprobe
    let (err, s) ← storeTokens (strsep text) s
    match err with
    | .error errno => return (.error errno, s)
    | .ok () => return (.ok (), if s.denabled then s.enableJprobe else s)

def loadEntry (s : DiskUtils) (i : Nat) : Except Fault (List Char) := do
  let name ← s.loadName i
  let util ← s.loadUtil i
  return name ++ '=' :: Text.decimal util.toInt

def dutilsOutputRead (s : DiskUtils) (seq : TraceSeq) : Except Fault (TraceSeq × DiskUtils) := do
  let s := s.disableJprobe
  let seq ← (if s.didx = 0 then return seq.puts "none\n".toList
    else do
      let entries ← (List.range s.didx).mapM s.loadEntry
      return seq.printList entries)
  return (seq, if s.denabled then s.enableJprobe else s)

end DiskUtils

/-- What can happen to the event: its files are read and written, and the
probed function is called. -/
inductive DiskOp where
  | writeEnable (ubuf : List Char)
  | readEnable
  | writeFilter (page dup : Bool) (ubuf : List Char)
  | readFilter
  | writeOutput
  | readOutput
  | hit (hit : PartHit)
deriving DecidableEq, Repr

/-- The state after an operation. Writing the output is refused, and a call of
the function does nothing unless its probe is armed. -/
def DiskUtils.step (s : DiskUtils) : DiskOp → Except Fault DiskUtils
  | .writeEnable ubuf => (enableWriteGeneric DiskUtils.dutilsEnableWrite ubuf s).map Prod.snd
  | .readEnable => .ok s
  | .writeFilter page dup ubuf =>
      (filterWriteGeneric (DiskUtils.dutilsFilterWrite dup) page ubuf s).map Prod.snd
  | .readFilter => (s.dutilsFilterRead .empty).map fun _ => s
  | .writeOutput => .ok s
  | .readOutput => (s.dutilsOutputRead .empty).map Prod.snd
  | .hit hit => if s.armed then s.onPartRoundStatsEnt hit else .ok s

end WPerf.Module
