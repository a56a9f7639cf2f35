import Mathlib.Tactic.SplitIfs

/-!
# Trace records

The five tracepoints the recorder enables. `TP_fast_assign` fills a slot of
the ring buffer that still holds an older record, one field at a time, so a
field that no line assigns keeps its old value. The template of `do_exit` has
no line for `tsc`.
-/

namespace WPerf.Trace

set_option autoImplicit false

abbrev commLen : Nat := 16

/-- A thread name as the kernel stores it; a NUL ends the text. -/
abbrev Comm := Vector Char commLen

def Comm.text (comm : Comm) : List Char := comm.toList.takeWhile (· ≠ '\x00')

def Comm.named (name : String) : Comm := Vector.ofFn fun i => name.toList.getD i '\x00'

def wait : Int32 := 0

def wakeup : Int32 := 1

def create : Int32 := 2

def exit : Int32 := 3

def nrSoftirqs : Int32 := 10

def hardirq : Int32 := nrSoftirqs + 1

def process : Int32 := nrSoftirqs + 2

structure Task where
  comm : Comm
  pid : Int32
  state : Int64
deriving DecidableEq, Repr

/-- What a probe reads besides its arguments: the current task, the execution
context, the CPU's `softirqs_nr`, and the bytes that follow the literal
"swapper" in memory, which a copy of `TASK_COMM_LEN` bytes runs into. -/
structure Machine where
  current : Task
  inIrq : Bool
  inServingSoftirq : Bool
  softirqsNr : Int32
  behindSwapper : Vector Char 8

structure SwitchEntry where
  type : Int32
  tsc : UInt64
  prevComm : Comm
  nextComm : Comm
  prevPid : Int32
  nextPid : Int32
  prevState : Int64
  nextState : Int64
  inWhichCtx : Int32
deriving DecidableEq, Repr

structure SoftirqEntry where
  prevComm : Comm
  beginTime : UInt64
  endTime : UInt64
deriving DecidableEq, Repr

/-- The lines on both tasks, the same in three templates. -/
def SwitchEntry.setTasks (entry : SwitchEntry) (prev next : Task) : SwitchEntry :=
  let entry := { entry with prevComm := prev.comm }
  let entry := { entry with nextComm := next.comm }
  let entry := { entry with prevPid := prev.pid }
  let entry := { entry with nextPid := next.pid }
  let entry := { entry with prevState := prev.state }
  { entry with nextState := next.state }

/-- The lines on the context. `softirq` is the value taken while a softirq is
served; `__switch_to` negates it and `try_to_wake_up` does not. -/
def SwitchEntry.setContext (entry : SwitchEntry) (machine : Machine) (softirq : Int32) :
    SwitchEntry :=
  if machine.inIrq then { entry with inWhichCtx := hardirq }
  else if machine.inServingSoftirq then { entry with inWhichCtx := softirq }
  else { entry with inWhichCtx := process }

def switchToAssign (prevP nextP : Task) (tsc : UInt64) (machine : Machine)
    (entry : SwitchEntry) : SwitchEntry :=
  let entry := { entry with type := wait }
  let entry := { entry with tsc := tsc }
  (entry.setTasks prevP nextP).setContext machine (-machine.softirqsNr)

def tryToWakeUpAssign (p : Task) (tsc : UInt64) (machine : Machine) (entry : SwitchEntry) :
    SwitchEntry :=
  let entry := { entry with type := wakeup }
  let entry := { entry with tsc := tsc }
  (entry.setTasks machine.current p).setContext machine machine.softirqsNr

def wakeUpNewTaskAssign (p : Task) (tsc : UInt64) (machine : Machine) (entry : SwitchEntry) :
    SwitchEntry :=
  let entry := { entry with type := create }
  let entry := { entry with tsc := tsc }
  let entry := entry.setTasks machine.current p
  { entry with inWhichCtx := process }

def swapperComm (behind : Vector Char 8) : Comm :=
  #v['s', 'w', 'a', 'p', 'p', 'e', 'r', '\x00'] ++ behind

/-- The argument `tsc` is not used. -/
def doExitAssign (_tsc : UInt64) (machine : Machine) (entry : SwitchEntry) : SwitchEntry :=
  let entry := { entry with type := exit }
  let entry := { entry with prevComm := machine.current.comm }
  let entry := { entry with nextComm := swapperComm machine.behindSwapper }
  let entry := { entry with prevPid := machine.current.pid }
  let entry := { entry with nextPid := 0 }
  let entry := { entry with prevState := machine.current.state }
  let entry := { entry with nextState := 0 }
  { entry with inWhichCtx := process }

def doSoftirqRetAssign (beginTime endTime : UInt64) (machine : Machine) (entry : SoftirqEntry) :
    SoftirqEntry :=
  let entry := { entry with prevComm := machine.current.comm }
  let entry := { entry with beginTime := beginTime }
  { entry with endTime := endTime }

inductive SwitchHit where
  | switchTo (prevP nextP : Task) (tsc : UInt64)
  | tryToWakeUp (p : Task) (state : UInt32) (wakeFlags : Int32) (tsc : UInt64)
  | wakeUpNewTask (p : Task) (tsc : UInt64)
  | doExit (tsc : UInt64)

namespace SwitchHit

def fastAssign : SwitchHit → Machine → SwitchEntry → SwitchEntry
  | switchTo prevP nextP tsc => switchToAssign prevP nextP tsc
  | tryToWakeUp p _ _ tsc => tryToWakeUpAssign p tsc
  | wakeUpNewTask p tsc => wakeUpNewTaskAssign p tsc
  | doExit tsc => doExitAssign tsc

def tsc : SwitchHit → UInt64
  | switchTo _ _ tsc => tsc
  | tryToWakeUp _ _ _ tsc => tsc
  | wakeUpNewTask _ tsc => tsc
  | doExit tsc => tsc

def Exits : SwitchHit → Prop
  | doExit _ => True
  | _ => False

end SwitchHit

theorem set_context_tsc (entry : SwitchEntry) (machine : Machine) (softirq : Int32) :
    (entry.setContext machine softirq).tsc = entry.tsc := by
  unfold SwitchEntry.setContext
  split_ifs <;> rfl

theorem set_context_eq (entry : SwitchEntry) (machine : Machine) (softirq : Int32) :
    entry.setContext machine softirq =
      { entry with inWhichCtx := if machine.inIrq then hardirq
          else if machine.inServingSoftirq then softirq else process } := by
  unfold SwitchEntry.setContext
  split_ifs <;> rfl

theorem assign_covers (hit : SwitchHit) (machine : Machine) (stays : ¬hit.Exits)
    (slot other : SwitchEntry) : hit.fastAssign machine slot = hit.fastAssign machine other := by
  cases hit with
  | switchTo prevP nextP tsc =>
      change (SwitchEntry.setContext _ machine _) = SwitchEntry.setContext _ machine _
      rw [set_context_eq, set_context_eq]
      rfl
  | tryToWakeUp p state wakeFlags tsc =>
      change (SwitchEntry.setContext _ machine _) = SwitchEntry.setContext _ machine _
      rw [set_context_eq, set_context_eq]
      rfl
  | wakeUpNewTask p tsc => rfl
  | doExit tsc => exact absurd trivial stays

theorem assign_tsc (hit : SwitchHit) (machine : Machine) (slot : SwitchEntry) :
    (¬hit.Exits → (hit.fastAssign machine slot).tsc = hit.tsc) ∧
      (hit.Exits → (hit.fastAssign machine slot).tsc = slot.tsc) := by
  cases hit with
  | switchTo prevP nextP tsc =>
      exact ⟨fun _ => set_context_tsc _ machine _, fun exits => absurd exits id⟩
  | tryToWakeUp p state wakeFlags tsc =>
      exact ⟨fun _ => set_context_tsc _ machine _, fun exits => absurd exits id⟩
  | wakeUpNewTask p tsc => exact ⟨fun _ => rfl, fun exits => absurd exits id⟩
  | doExit tsc => exact ⟨fun stays => absurd trivial stays, fun _ => rfl⟩

/-- The record is the probed event's alone, with its own time, exactly when
the tracepoint is not `do_exit` or both slots happened to hold that time. A
softirq record always is. -/
theorem record_of_event_iff (hit : SwitchHit) (machine : Machine) (slot other : SwitchEntry)
    (beginTime endTime : UInt64) (softSlot softOther : SoftirqEntry) :
    (doSoftirqRetAssign beginTime endTime machine softSlot =
        doSoftirqRetAssign beginTime endTime machine softOther) ∧
      (hit.fastAssign machine slot = hit.fastAssign machine other ∧
          (hit.fastAssign machine slot).tsc = hit.tsc ↔
        (hit.Exits → slot.tsc = hit.tsc ∧ other.tsc = hit.tsc)) := by
  refine ⟨rfl, ?_⟩
  have slotTime := assign_tsc hit machine slot
  have otherTime := assign_tsc hit machine other
  constructor
  · intro ⟨same, time⟩ exits
    rw [slotTime.2 exits] at time
    have times := congrArg SwitchEntry.tsc same
    rw [slotTime.2 exits, otherTime.2 exits] at times
    exact ⟨time, times.symm.trans time⟩
  · intro held
    by_cases exits : hit.Exits
    · obtain ⟨slotHeld, otherHeld⟩ := held exits
      rw [slotTime.2 exits]
      refine ⟨?_, slotHeld⟩
      cases hit with
      | doExit tsc =>
          change { doExitAssign tsc machine other with tsc := slot.tsc } = _
          rw [slotHeld, ← otherHeld]
          rfl
      | switchTo prevP nextP tsc => exact absurd exits id
      | tryToWakeUp p state wakeFlags tsc => exact absurd exits id
      | wakeUpNewTask p tsc => exact absurd exits id
    · exact ⟨assign_covers hit machine exits slot other, slotTime.1 exits⟩

def leavingTask : Task := ⟨.named "sshd", 7, 64⟩

theorem exit_time_is_stale :
    ∃ machine slot other, (SwitchHit.doExit 500).fastAssign machine slot ≠
        (SwitchHit.doExit 500).fastAssign machine other ∧
      ((SwitchHit.doExit 500).fastAssign machine slot).tsc ≠ 500 := by
  let machine : Machine := ⟨leavingTask, false, false, nrSoftirqs, Vector.replicate 8 'x'⟩
  let slot : SwitchEntry := (SwitchHit.switchTo leavingTask leavingTask 20).fastAssign machine
    ⟨0, 0, leavingTask.comm, leavingTask.comm, 0, 0, 0, 0, 0⟩
  refine ⟨machine, slot, { slot with tsc := 30 }, ?_, by decide⟩
  intro same
  have times := congrArg SwitchEntry.tsc same
  exact absurd times (by decide)

end WPerf.Trace
