import WPerf.Library.Dict
import WPerf.Library.Text

/-!
# Encoding trace lines

`encorder.py`: every line becomes one JSON object, and a line on which any
statement raises an exception is skipped. An exception is `none` here. The two
JSON libraries are a parameter, of which only the round trip of objects is
used.
-/

namespace WPerf.Trace

open WPerf.Library

set_option autoImplicit false

inductive Value where
  | text (s : List Char)
  | number (n : Int)
deriving DecidableEq, Repr

abbrev Object := Dict (List Char) Value

/-- Python's encoder and Go's decoder of JSON objects. An encoded object is
one line, and decoding gives back its members in order. -/
structure JsonCodec where
  encode : Object → List Char
  decode : List Char → Option (List (List Char × Value))
  oneLine : ∀ object, '\n' ∉ encode object
  decodeEncode : ∀ object, decode (encode object) = some object.entries

/-- `int` of a text: blanks around it, a sign, and single underscores between
digits are allowed. -/
def pyInt (s : List Char) : Option Int :=
  let s := (s.dropWhile Text.isSpace).rdropWhile Text.isSpace
  let digits (s : List Char) : Option Nat :=
    if [] ∈ s.splitOn '_' then none else Text.natOf (s.filter (· ≠ '_'))
  match s with
  | '-' :: s => (digits s).map fun n : Nat => (-n : Int)
  | '+' :: s => (digits s).map fun n : Nat => (n : Int)
  | s => (digits s).map fun n : Nat => (n : Int)

def assignField (structed : Object) (field : List Char) : Option Object :=
  let field := field.filter (· ≠ ' ')
  match field.splitOn '=' with
  | [k, v] => some (structed.set k (.text v))
  | _ => none

def encodeLine (line : List Char) : Option Object := do
  let [comm, _event, data] := Text.rsplit ": ".toList 2 line | none
  let [taskPid, cpu, sched, timestamp] :=
    ([' '].intercalate (Text.words Text.isSpace comm)).splitOn ' ' | none
  let [task, pid] := Text.rsplit ['-'] 1 taskPid | none
  let structed : Object := Dict.empty
  let structed := structed.set "comm".toList (.text task)
  let structed := structed.set "pid".toList (.text pid)
  let cpu ← pyInt (Text.strip ']' (Text.strip '[' cpu))
  let structed := structed.set "cpu".toList (.number cpu)
  let irqsOff ← sched[0]?
  let structed := structed.set "irqs_off".toList (.text [irqsOff])
  let needResched ← sched[1]?
  let structed := structed.set "need_resched".toList (.text [needResched])
  let ctx ← sched[2]?
  let structed := structed.set "ctx".toList (.text [ctx])
  let preemptDepth ← sched[3]?
  let structed := structed.set "preempt_depth".toList (.text [preemptDepth])
  let structed := structed.set "timestamp".toList (.text timestamp)
  let struct := (Text.strip '\n' data).splitOn ','
  struct.foldlM assignField structed

/-- `encode` with `output`: the text of the written file. -/
def encode (json : JsonCodec) (lines : List (List Char)) : List Char :=
  (lines.filterMap encodeLine).flatMap fun object => json.encode object ++ ['\n']

end WPerf.Trace
