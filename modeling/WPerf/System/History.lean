import WPerf.Analyzer.Tiling
import WPerf.System.Machine

/-!
# The history of a run

The hits of the switch instance as the analyzer is to see them: the threads,
the context and the time of each, whatever the ring buffer held before. Along a
run a thread leaves a CPU that it was switched to, so the softirqs that end in
its slice began in it.
-/

namespace WPerf.System

open WPerf.Trace WPerf.Module WPerf.Analyzer

set_option autoImplicit false

/-- The context a hit is in; `softirq` stands for a softirq. -/
def contextOf (machine : Machine) (softirq : Int32) : Int32 :=
  if machine.inIrq then hardirq
  else if machine.inServingSoftirq then softirq
  else Trace.process

namespace Probe

def between (probe : Probe) (type : Int64) (prev next : Task) (context : Int32) : Switch where
  cpu := .ofInt probe.columns.cpu
  time := probe.hit.tsc
  type := type
  prevPid := prev.pid.toInt64
  nextPid := next.pid.toInt64
  prevState := prev.state.toUInt64
  nextState := next.state.toUInt64
  prevComm := String.ofList prev.comm.text
  nextComm := String.ofList next.comm.text
  inWhichCtx := context.toInt64

/-- What has happened, as an event of the analyzer. -/
def switch (probe : Probe) : Switch :=
  match probe.hit with
  | .switchTo prevP nextP _ =>
      probe.between 0 prevP nextP (contextOf probe.machine (-probe.machine.softirqsNr))
  | .tryToWakeUp p .. =>
      probe.between 1 probe.machine.current p (contextOf probe.machine probe.machine.softirqsNr)
  | .wakeUpNewTask p _ => probe.between 2 probe.machine.current p Trace.process
  | .doExit _ =>
      probe.between 3 probe.machine.current ⟨swapperComm probe.machine.behindSwapper, 0, 0⟩
        Trace.process

end Probe

end WPerf.System
