import WPerf.Library.Text
import WPerf.Trace.Record

/-!
# Lines of the trace pipe

`TP_printk` of the tracepoints and the columns the trace pipe prints before
it. Names are printed as they are, whatever characters they hold. The template
of `do_exit` has a second blank before `prev_pid`.
-/

namespace WPerf.Trace

open WPerf.Library

set_option autoImplicit false

/-- The text of a switch record; `gap` is what stands before `prev_pid`. -/
def switchText (gap : List Char) (entry : SwitchEntry) : List Char :=
  "type=".toList ++ Text.decimal entry.type.toInt ++
  ", tsc=".toList ++ Text.decimal entry.tsc.toNat ++
  ", prev_comm=".toList ++ entry.prevComm.text ++
  ", next_comm=".toList ++ entry.nextComm.text ++
  ",".toList ++ gap ++ "prev_pid=".toList ++ Text.decimal entry.prevPid.toInt ++
  ", next_pid=".toList ++ Text.decimal entry.nextPid.toInt ++
  ", prev_state=".toList ++ Text.decimal entry.prevState.toInt ++
  ", next_state=".toList ++ Text.decimal entry.nextState.toInt ++
  ", in_which_ctx=".toList ++ Text.decimal entry.inWhichCtx.toInt

inductive SwitchEvent where
  | switchTo
  | tryToWakeUp
  | wakeUpNewTask
  | doExit
deriving DecidableEq, Repr

namespace SwitchEvent

def name : SwitchEvent → List Char
  | switchTo => "__switch_to".toList
  | tryToWakeUp => "try_to_wake_up".toList
  | wakeUpNewTask => "wake_up_new_task".toList
  | doExit => "do_exit".toList

def printk : SwitchEvent → SwitchEntry → List Char
  | switchTo => switchText " ".toList
  | tryToWakeUp => switchText " ".toList
  | wakeUpNewTask => switchText " ".toList
  | doExit => switchText "  ".toList

end SwitchEvent

def softirqName : List Char := "__do_softirq_ret".toList

def softirqPrintk (entry : SoftirqEntry) : List Char :=
  "prev_comm=".toList ++ entry.prevComm.text ++
  ", begin_time=".toList ++ Text.decimal entry.beginTime.toNat ++
  ", end_time=".toList ++ Text.decimal entry.endTime.toNat

/-- What the trace pipe prints before an event: the recording task, the CPU,
four flag characters and the time, in columns. The widths are free, and so are
leading zeros of the CPU. -/
structure Header where
  task : List Char
  pid : Int32
  cpu : Nat
  flags : List Char
  timestamp : List Char
  lead : Nat
  afterTask : Nat
  cpuZeros : Nat
  afterCpu : Nat
  afterFlags : Nat
  cpuFits : cpu < 0x80000000
  fourFlags : flags.length = 4
  flagsSolid : ∀ c ∈ flags, Text.isSpace c = false
  timestampSolid : ∀ c ∈ timestamp, Text.isSpace c = false
  timestampPrinted : timestamp ≠ []

namespace Header

def taskColumn (header : Header) : List Char :=
  List.replicate header.lead ' ' ++ header.task ++ '-' :: Text.decimal header.pid.toInt

def cpuColumn (header : Header) : List Char :=
  '[' :: (List.replicate header.cpuZeros '0' ++ Nat.toDigits 10 header.cpu) ++ [']']

def columns (header : Header) : List Char :=
  header.taskColumn ++
  ' ' :: (List.replicate header.afterTask ' ' ++ header.cpuColumn ++
  ' ' :: (List.replicate header.afterCpu ' ' ++ header.flags ++
  ' ' :: (List.replicate header.afterFlags ' ' ++ header.timestamp)))

def line (header : Header) (event text : List Char) : List Char :=
  header.columns ++ ": ".toList ++ event ++ ": ".toList ++ text ++ "\n".toList

def sample (task : String) : Header where
  task := task.toList
  pid := 7
  cpu := 3
  flags := "d..2".toList
  timestamp := "123.456789".toList
  lead := 4
  afterTask := 3
  cpuZeros := 2
  afterCpu := 0
  afterFlags := 1
  cpuFits := by decide
  fourFlags := by decide
  flagsSolid := by decide
  timestampSolid := by decide
  timestampPrinted := by decide

end Header

end WPerf.Trace
