import WPerf.Module.Softirqs
import WPerf.Trace.RoundTrip

/-!
# The traced machine

CPUs that switch between threads, wake threads up and serve softirqs, and what
the module's probes record of it. The clock goes forward with every event, a
CPU switches away from the thread it runs and not while it serves softirqs, and
a thread other than the idle one runs on one CPU at a time. The records of
softirqs then lie apart from each other and from the switches of their CPU.
-/

namespace WPerf.System

open WPerf.Trace WPerf.Module
open WPerf.Analyzer (Switch)

set_option autoImplicit false

/-- A hit of a tracepoint of the switch instance: the probe's arguments, what
else the probe reads, the slot of the ring buffer, and the columns printed
before the record, which name the CPU. -/
structure Probe where
  hit : SwitchHit
  machine : Machine
  slot : SwitchEntry
  columns : Header

inductive Event where
  | probe (probe : Probe)
  | softirqEnt (cpu : Nat) (tsc : UInt64)
  | softirqRet (tsc : UInt64) (machine : Machine) (slot : SoftirqEntry) (columns : Header)

structure Cpu where
  running : Int32
  serving : Bool
  data : PerCpuWperfData

/-- The time of the latest event, and the CPUs. -/
structure Kernel where
  clock : UInt64
  cpus : Nat → Cpu

def eventOf : SwitchHit → SwitchEvent
  | .switchTo .. => .switchTo
  | .tryToWakeUp .. => .tryToWakeUp
  | .wakeUpNewTask .. => .wakeUpNewTask
  | .doExit .. => .doExit

namespace Probe

def line (probe : Probe) : SwitchLine :=
  ⟨probe.columns, eventOf probe.hit, probe.hit.fastAssign probe.machine probe.slot⟩

def cpu (probe : Probe) : Nat := probe.columns.cpu

def IsSwitch (probe : Probe) : Prop :=
  match probe.hit with
  | .switchTo .. => True
  | _ => False

end Probe

namespace Event

def tsc : Event → UInt64
  | probe hit => hit.hit.tsc
  | softirqEnt _ tsc => tsc
  | softirqRet tsc .. => tsc

/-- What the kernel does only in some states of the CPUs. -/
def Allowed (cpus : Nat → Cpu) : Event → Prop
  | probe ⟨.switchTo prevP nextP _, _, _, columns⟩ =>
      (cpus columns.cpu).running = prevP.pid ∧ (cpus columns.cpu).serving = false ∧
        prevP.pid ≠ nextP.pid ∧
        (nextP.pid = 0 ∨ ∀ cpu, cpu ≠ columns.cpu → (cpus cpu).running ≠ nextP.pid)
  | probe _ => True
  | softirqEnt cpu _ => (cpus cpu).serving = false
  | softirqRet _ _ _ columns => (cpus columns.cpu).serving = true

/-- The CPUs after an event. `__do_softirq` is entered and left with the
module's data written. -/
def apply (cpus : Nat → Cpu) : Event → Nat → Cpu
  | probe ⟨.switchTo _ nextP _, _, _, columns⟩ =>
      Function.update cpus columns.cpu { cpus columns.cpu with running := nextP.pid }
  | probe _ => cpus
  | softirqEnt cpu tsc =>
      Function.update cpus cpu
        { cpus cpu with serving := true, data := onDoSoftirqEnt tsc (cpus cpu).data }
  | softirqRet _ _ _ columns =>
      Function.update cpus columns.cpu { cpus columns.cpu with serving := false }

def softirqLine (cpus : Nat → Cpu) : Event → Option SoftirqLine
  | softirqRet tsc machine slot columns =>
      some ⟨columns, doSoftirqRetAssign (cpus columns.cpu).data.softirqBtime tsc machine slot⟩
  | _ => none

def probeOf : Event → Option Probe
  | probe hit => some hit
  | _ => none

end Event

namespace Kernel

def step (kernel : Kernel) (event : Event) : Kernel := ⟨event.tsc, event.apply kernel.cpus⟩

def Runs : Kernel → List Event → Prop
  | _, [] => True
  | kernel, event :: rest =>
      (kernel.clock < event.tsc ∧ event.Allowed kernel.cpus) ∧ (kernel.step event).Runs rest

def softirqLines : Kernel → List Event → List SoftirqLine
  | _, [] => []
  | kernel, event :: rest =>
      (event.softirqLine kernel.cpus).toList ++ (kernel.step event).softirqLines rest

/-- No thread but the idle one runs on two CPUs, and softirqs that are being
served were entered in the past. -/
structure Sound (kernel : Kernel) : Prop where
  alone : ∀ cpu other, (kernel.cpus cpu).running = (kernel.cpus other).running →
    (kernel.cpus cpu).running ≠ 0 → cpu = other
  entered : ∀ cpu, (kernel.cpus cpu).serving = true →
    (kernel.cpus cpu).data.softirqBtime ≤ kernel.clock

end Kernel

def probes (events : List Event) : List Probe := events.filterMap Event.probeOf

theorem step_cases (cpus : Nat → Cpu) (event : Event) (allowed : event.Allowed cpus) :
    (∃ prevP nextP tsc machine slot columns,
      event = .probe ⟨.switchTo prevP nextP tsc, machine, slot, columns⟩ ∧
      (cpus columns.cpu).running = prevP.pid ∧ (cpus columns.cpu).serving = false ∧
      prevP.pid ≠ nextP.pid ∧
      (nextP.pid = 0 ∨ ∀ cpu, cpu ≠ columns.cpu → (cpus cpu).running ≠ nextP.pid)) ∨
    (∃ probe : Probe, event = .probe probe ∧ ¬probe.IsSwitch ∧ event.apply cpus = cpus) ∨
    (∃ cpu tsc, event = .softirqEnt cpu tsc ∧ (cpus cpu).serving = false) ∨
    ∃ tsc machine slot columns, event = .softirqRet tsc machine slot columns ∧
      (cpus columns.cpu).serving = true := by
  cases event with
  | probe probe =>
      obtain ⟨hit, machine, slot, columns⟩ := probe
      cases hit with
      | switchTo prevP nextP tsc =>
          exact Or.inl ⟨prevP, nextP, tsc, machine, slot, columns, rfl, allowed⟩
      | tryToWakeUp p state wakeFlags tsc => exact Or.inr (Or.inl ⟨_, rfl, id, rfl⟩)
      | wakeUpNewTask p tsc => exact Or.inr (Or.inl ⟨_, rfl, id, rfl⟩)
      | doExit tsc => exact Or.inr (Or.inl ⟨_, rfl, id, rfl⟩)
  | softirqEnt cpu tsc => exact Or.inr (Or.inr (Or.inl ⟨cpu, tsc, rfl, allowed⟩))
  | softirqRet tsc machine slot columns =>
      exact Or.inr (Or.inr (Or.inr ⟨tsc, machine, slot, columns, rfl, allowed⟩))

namespace Kernel

variable {kernel : Kernel}

theorem Sound.step (sound : kernel.Sound) (event : Event) (later : kernel.clock < event.tsc)
    (allowed : event.Allowed kernel.cpus) : (kernel.step event).Sound := by
  have entered : ∀ cpu, (kernel.cpus cpu).serving = true →
      (kernel.cpus cpu).data.softirqBtime ≤ event.tsc :=
    fun cpu serving => (sound.entered cpu serving).trans later.le
  rcases step_cases kernel.cpus event allowed with
    ⟨prevP, nextP, tsc, machine, slot, columns, rfl, _, _, _, free⟩ | ⟨probe, _, _, same⟩ |
      ⟨cpu, tsc, rfl, _⟩ | ⟨tsc, machine, slot, columns, rfl, _⟩
  · -- the next thread runs on this CPU and on no other
    have elsewhere : ∀ cpu, cpu ≠ columns.cpu →
        (kernel.cpus cpu).running = nextP.pid → nextP.pid = 0 :=
      fun cpu other runs => free.resolve_right fun none => none cpu other runs
    constructor
    · intro cpu other same awake
      by_cases here : cpu = columns.cpu <;> by_cases there : other = columns.cpu
      · rw [here, there]
      · simp only [Kernel.step, Event.apply, here, Function.update_self,
          Function.update_of_ne there] at same awake
        exact absurd (elsewhere other there same.symm) awake
      · simp only [Kernel.step, Event.apply, there, Function.update_self,
          Function.update_of_ne here] at same awake
        exact absurd (same.trans (elsewhere cpu here same)) awake
      · simp only [Kernel.step, Event.apply, Function.update_of_ne here,
          Function.update_of_ne there] at same awake
        exact sound.alone cpu other same awake
    · intro cpu serving
      by_cases here : cpu = columns.cpu
      · simp only [Kernel.step, Event.apply, here, Function.update_self] at serving ⊢
        exact entered columns.cpu serving
      · simp only [Kernel.step, Event.apply, Function.update_of_ne here] at serving ⊢
        exact entered cpu serving
  · simp only [Kernel.step, same]
    exact ⟨sound.alone, entered⟩
  · have running : ∀ other, ((kernel.step (.softirqEnt cpu tsc)).cpus other).running =
        (kernel.cpus other).running := by
      intro other
      by_cases here : other = cpu
      · simp only [Kernel.step, Event.apply, here, Function.update_self]
      · simp only [Kernel.step, Event.apply, Function.update_of_ne here]
    constructor
    · intro one other
      rw [running, running]
      exact sound.alone one other
    · intro other serving
      by_cases here : other = cpu
      · simp only [Kernel.step, Event.apply, here, Function.update_self]
        exact le_refl tsc
      · simp only [Kernel.step, Event.apply, Function.update_of_ne here] at serving ⊢
        exact entered other serving
  · have running : ∀ other,
        ((kernel.step (.softirqRet tsc machine slot columns)).cpus other).running =
          (kernel.cpus other).running := by
      intro other
      by_cases here : other = columns.cpu
      · simp only [Kernel.step, Event.apply, here, Function.update_self]
      · simp only [Kernel.step, Event.apply, Function.update_of_ne here]
    constructor
    · intro one other
      rw [running, running]
      exact sound.alone one other
    · intro other serving
      by_cases here : other = columns.cpu
      · simp only [Kernel.step, Event.apply, here, Function.update_self] at serving
        exact absurd serving Bool.false_ne_true
      · simp only [Kernel.step, Event.apply, Function.update_of_ne here] at serving ⊢
        exact entered other serving

theorem runs_after (events : List Event) (runs : kernel.Runs events) :
    ∀ event ∈ events, kernel.clock < event.tsc := by
  induction events generalizing kernel with
  | nil => exact fun event member => absurd member List.not_mem_nil
  | cons first rest ih =>
      obtain ⟨⟨later, _⟩, remaining⟩ := runs
      intro event member
      rcases List.mem_cons.mp member with rfl | inRest
      · exact later
      · exact later.trans (ih remaining event inRest)

end Kernel

/-- A record of a run: from its entry to its return, without a switch of its
CPU. -/
structure Undisturbed (events : List Event) (record : SoftirqLine) : Prop where
  forward : record.entry.beginTime < record.entry.endTime
  unswitched : ∀ probe ∈ probes events, probe.IsSwitch → probe.cpu = record.header.cpu →
    probe.hit.tsc < record.entry.beginTime ∨ record.entry.endTime < probe.hit.tsc

/-- A record that is still to come was entered when its CPU began to serve, or
will be. -/
structure ToCome (kernel : Kernel) (record : SoftirqLine) : Prop where
  ends : kernel.clock < record.entry.endTime
  begins : kernel.clock < record.entry.beginTime ∨
    (kernel.cpus record.header.cpu).serving = true ∧
      record.entry.beginTime = (kernel.cpus record.header.cpu).data.softirqBtime

theorem softirq_lines_to_come (kernel : Kernel) (sound : kernel.Sound) (events : List Event)
    (runs : kernel.Runs events) :
    (∀ record ∈ kernel.softirqLines events, ToCome kernel record ∧ Undisturbed events record) ∧
      (kernel.softirqLines events).Pairwise fun first second =>
        first.header.cpu = second.header.cpu → first.entry.endTime < second.entry.beginTime := by
  induction events generalizing kernel with
  | nil => exact ⟨fun record member => absurd member List.not_mem_nil, .nil⟩
  | cons event rest ih =>
      obtain ⟨⟨later, allowed⟩, remaining⟩ := runs
      obtain ⟨each, apart⟩ := ih (kernel.step event) (sound.step event later allowed) remaining
      have after := Kernel.runs_after rest remaining
      rcases step_cases kernel.cpus event allowed with
        ⟨prevP, nextP, tsc, machine, slot, columns, rfl, _, idle, _, _⟩ |
          ⟨probe, rfl, other, same⟩ | ⟨cpu, tsc, rfl, idle⟩ |
            ⟨tsc, machine, slot, columns, rfl, busy⟩
      · refine ⟨fun record member => ?_, apart⟩
        obtain ⟨toCome, undisturbed⟩ := each record member
        have begins : kernel.clock < record.entry.beginTime ∨
            (kernel.cpus record.header.cpu).serving = true ∧
              record.entry.beginTime = (kernel.cpus record.header.cpu).data.softirqBtime := by
          refine toCome.begins.imp later.trans fun entered => ?_
          by_cases here : record.header.cpu = columns.cpu
          · simp only [Kernel.step, Event.apply, here, Function.update_self] at entered ⊢
            exact entered
          · simp only [Kernel.step, Event.apply, Function.update_of_ne here] at entered
            exact entered
        refine ⟨⟨later.trans toCome.ends, begins⟩, undisturbed.forward, ?_⟩
        intro probe member switch onCpu
        rcases List.mem_cons.mp member with rfl | inRest
        · -- the CPU of a switch serves no softirq, so the record begins later
          left
          refine toCome.begins.resolve_right fun entered => ?_
          rw [← onCpu] at entered
          simp only [Kernel.step, Event.apply, Probe.cpu, Function.update_self] at entered
          rw [idle] at entered
          exact Bool.false_ne_true entered.1
        · exact undisturbed.unswitched probe inRest switch onCpu
      · refine ⟨fun record member => ?_, apart⟩
        obtain ⟨toCome, undisturbed⟩ := each record member
        have begins := toCome.begins
        simp only [Kernel.step, same] at begins
        refine ⟨⟨later.trans toCome.ends, begins.imp_left later.trans⟩, undisturbed.forward, ?_⟩
        intro hit member switch onCpu
        rcases List.mem_cons.mp member with rfl | inRest
        · exact absurd switch other
        · exact undisturbed.unswitched hit inRest switch onCpu
      · refine ⟨fun record member => ?_, apart⟩
        obtain ⟨toCome, undisturbed⟩ := each record member
        refine ⟨⟨later.trans toCome.ends, ?_⟩, undisturbed.forward, undisturbed.unswitched⟩
        rcases toCome.begins with begins | entered
        · exact Or.inl (later.trans begins)
        · by_cases here : record.header.cpu = cpu
          · simp only [Kernel.step, Event.apply, here, Function.update_self] at entered
            rw [entered.2]
            exact Or.inl later
          · simp only [Kernel.step, Event.apply, Function.update_of_ne here] at entered
            exact Or.inr entered
      · have begun := sound.entered columns.cpu busy
        have others : ∀ record ∈ (kernel.step (.softirqRet tsc machine slot columns)).softirqLines
            rest, (record.header.cpu = columns.cpu → tsc < record.entry.beginTime) ∧
              ToCome kernel record ∧ Undisturbed rest record := by
          intro record member
          obtain ⟨toCome, undisturbed⟩ := each record member
          by_cases here : record.header.cpu = columns.cpu
          · -- the CPU has left, so the next record of it begins later
            have begins : tsc < record.entry.beginTime := by
              refine toCome.begins.resolve_right fun entered => ?_
              simp only [Kernel.step, Event.apply, here, Function.update_self] at entered
              exact Bool.false_ne_true entered.1
            exact ⟨fun _ => begins, ⟨later.trans toCome.ends, Or.inl (later.trans begins)⟩,
              undisturbed⟩
          · have begins := toCome.begins
            simp only [Kernel.step, Event.apply, Function.update_of_ne here] at begins
            exact ⟨fun same => absurd same here,
              ⟨later.trans toCome.ends, begins.imp_left later.trans⟩, undisturbed⟩
        constructor
        · intro record member
          rcases List.mem_cons.mp member with rfl | inRest
          · refine ⟨⟨later, Or.inr ⟨busy, rfl⟩⟩, lt_of_le_of_lt begun later, ?_⟩
            intro probe inProbes _ _
            have inRest : probe ∈ probes rest := inProbes
            obtain ⟨event, member, same⟩ := List.mem_filterMap.mp inRest
            cases event with
            | probe hit =>
                cases same
                exact Or.inr (after _ member)
            | softirqEnt cpu tsc => cases same
            | softirqRet tsc machine slot columns => cases same
          · obtain ⟨_, toCome, undisturbed⟩ := others record inRest
            exact ⟨toCome, undisturbed.forward, undisturbed.unswitched⟩
        · exact List.pairwise_cons.mpr
            ⟨fun record member same => (others record member).1 same.symm, apart⟩

/-- Whatever runs on the CPUs: each softirq record begins before it ends, on
each CPU the records follow one another, and no switch of a CPU falls into one
of its records. -/
theorem softirq_records_apart (kernel : Kernel) (sound : kernel.Sound) (events : List Event)
    (runs : kernel.Runs events) :
    (∀ record ∈ kernel.softirqLines events, Undisturbed events record) ∧
      (kernel.softirqLines events).Pairwise fun first second =>
        first.header.cpu = second.header.cpu → first.entry.endTime < second.entry.beginTime :=
  (softirq_lines_to_come kernel sound events runs).imp_left fun each record member =>
    (each record member).2

def idleKernel : Kernel := ⟨0, fun _ => ⟨0, false, ⟨0, 0⟩⟩⟩

theorem idle_kernel_sound : idleKernel.Sound :=
  ⟨fun _ _ _ awake => absurd rfl awake, fun _ serving => absurd serving Bool.false_ne_true⟩

def idleTask : Task := ⟨.named "swapper/3", 0, 0⟩

def softirqRun : List Event :=
  [.softirqEnt 3 10, .softirqRet 20 ⟨idleTask, false, true, 0, Vector.replicate 8 'x'⟩
      ⟨idleTask.comm, 0, 0⟩ (.sample "swapper/3"),
    .probe ⟨.switchTo idleTask sleeperTask 30, ⟨idleTask, false, false, 0, Vector.replicate 8 'x'⟩,
      ⟨0, 0, idleTask.comm, idleTask.comm, 0, 0, 0, 0, 0⟩, .sample "swapper/3"⟩]

theorem softirq_run_runs : idleKernel.Runs softirqRun := by
  refine ⟨⟨by decide, rfl⟩, ⟨by decide, rfl⟩, ⟨by decide, rfl, rfl, by decide, ?_⟩, trivial⟩
  refine Or.inr fun cpu other runs => ?_
  have here : cpu ≠ 3 := other
  simp [Kernel.step, Event.apply, idleKernel, sleeperTask, here, Header.sample] at runs

theorem softirq_run_apart :
    (∀ record ∈ idleKernel.softirqLines softirqRun, Undisturbed softirqRun record) ∧
      (idleKernel.softirqLines softirqRun).Pairwise fun first second =>
        first.header.cpu = second.header.cpu → first.entry.endTime < second.entry.beginTime :=
  softirq_records_apart idleKernel idle_kernel_sound softirqRun softirq_run_runs

end WPerf.System
