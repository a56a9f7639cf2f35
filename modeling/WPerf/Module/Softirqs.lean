import Mathlib.Logic.Function.Basic
import WPerf.Trace.Record

/-!
# The softirq a wakeup is recorded with

Each CPU keeps the number of the softirq whose handler it runs. The kretprobes
of nine handlers set it at the entry and reset it to the number of softirqs at
the return; nothing sets it before the first entry, when it is 0, the number of
a softirq of its own.
-/

namespace WPerf.Module

open WPerf.Trace

set_option autoImplicit false

structure PerCpuWperfData where
  softirqsNr : Int32
  softirqBtime : UInt64
deriving DecidableEq, Repr

def wperfCpuData : Nat → PerCpuWperfData := fun _ => ⟨0, 0⟩

structure Kretprobe where
  entryHandler : PerCpuWperfData → PerCpuWperfData
  handler : PerCpuWperfData → PerCpuWperfData

def declSoftirqKrp (nr : Int32) : Kretprobe where
  entryHandler := fun data => { data with softirqsNr := nr }
  handler := fun data => { data with softirqsNr := nrSoftirqs }

/-- The kernel's enumeration of softirqs, without `HRTIMER_SOFTIRQ`. -/
def hiSoftirq : Int32 := 0

def timerSoftirq : Int32 := 1

def netTxSoftirq : Int32 := 2

def netRxSoftirq : Int32 := 3

def blockSoftirq : Int32 := 4

def irqPollSoftirq : Int32 := 5

def taskletSoftirq : Int32 := 6

def schedSoftirq : Int32 := 7

def rcuSoftirq : Int32 := 9

def taskletHiActionKrp : Kretprobe := declSoftirqKrp hiSoftirq

def runTimerSoftirqKrp : Kretprobe := declSoftirqKrp timerSoftirq

def netTxActionKrp : Kretprobe := declSoftirqKrp netTxSoftirq

def netRxActionKrp : Kretprobe := declSoftirqKrp netRxSoftirq

def blkDoneSoftirqKrp : Kretprobe := declSoftirqKrp blockSoftirq

def irqPollSoftirqKrp : Kretprobe := declSoftirqKrp irqPollSoftirq

def taskletActionKrp : Kretprobe := declSoftirqKrp taskletSoftirq

def runRebalanceDomainsKrp : Kretprobe := declSoftirqKrp schedSoftirq

def rcuProcessCallbacksKrp : Kretprobe := declSoftirqKrp rcuSoftirq

inductive SoftirqHandler where
  | taskletHiAction
  | runTimerSoftirq
  | netTxAction
  | netRxAction
  | blkDoneSoftirq
  | irqPollSoftirq
  | taskletAction
  | runRebalanceDomains
  | rcuProcessCallbacks
deriving DecidableEq, Repr

namespace SoftirqHandler

def krp : SoftirqHandler → Kretprobe
  | taskletHiAction => taskletHiActionKrp
  | runTimerSoftirq => runTimerSoftirqKrp
  | netTxAction => netTxActionKrp
  | netRxAction => netRxActionKrp
  | blkDoneSoftirq => blkDoneSoftirqKrp
  | irqPollSoftirq => irqPollSoftirqKrp
  | taskletAction => taskletActionKrp
  | runRebalanceDomains => runRebalanceDomainsKrp
  | rcuProcessCallbacks => rcuProcessCallbacksKrp

def nr : SoftirqHandler → Int32
  | taskletHiAction => hiSoftirq
  | runTimerSoftirq => timerSoftirq
  | netTxAction => netTxSoftirq
  | netRxAction => netRxSoftirq
  | blkDoneSoftirq => blockSoftirq
  | irqPollSoftirq => Module.irqPollSoftirq
  | taskletAction => taskletSoftirq
  | runRebalanceDomains => schedSoftirq
  | rcuProcessCallbacks => rcuSoftirq

end SoftirqHandler

def onDoSoftirqEnt (tsc : UInt64) (data : PerCpuWperfData) : PerCpuWperfData :=
  { data with softirqBtime := tsc }

/-- A hit of `try_to_wake_up` while the CPU serves a softirq: its arguments,
and what else the probe and its record find. -/
structure WakeHit where
  p : Task
  tsc : UInt64
  current : Task
  behindSwapper : Vector Char 8
  slot : SwitchEntry

def WakeHit.record (hit : WakeHit) (data : PerCpuWperfData) : SwitchEntry :=
  tryToWakeUpAssign hit.p hit.tsc ⟨hit.current, false, true, data.softirqsNr, hit.behindSwapper⟩
    hit.slot

inductive SoftirqEvent where
  | enter (handler : SoftirqHandler)
  | leave (handler : SoftirqHandler)
  | doSoftirqEnt (tsc : UInt64)
  | wakeUp (hit : WakeHit)

namespace SoftirqEvent

def apply (data : PerCpuWperfData) : SoftirqEvent → PerCpuWperfData
  | enter handler => handler.krp.entryHandler data
  | leave handler => handler.krp.handler data
  | doSoftirqEnt tsc => onDoSoftirqEnt tsc data
  | wakeUp _ => data

def after (running : Option SoftirqHandler) : SoftirqEvent → Option SoftirqHandler
  | enter handler => some handler
  | leave _ => none
  | _ => running

/-- Handlers do not nest, and only the one that runs returns. -/
def follows (running : Option SoftirqHandler) : SoftirqEvent → Bool
  | enter _ => running = none
  | leave handler => running = some handler
  | _ => true

def isEntry : SoftirqEvent → Bool
  | enter _ => true
  | _ => false

end SoftirqEvent

def onCpu (cpu : Nat) (events : List (Nat × SoftirqEvent)) : List SoftirqEvent :=
  (events.filter fun event => event.1 = cpu).map Prod.snd

def cpuStep (cpus : Nat → PerCpuWperfData) (event : Nat × SoftirqEvent) : Nat → PerCpuWperfData :=
  Function.update cpus event.1 (event.2.apply (cpus event.1))

def alternates : Option SoftirqHandler → List SoftirqEvent → Bool
  | _, [] => true
  | running, event :: rest => event.follows running && alternates (event.after running) rest

def runningAfter (events : List SoftirqEvent) : Option SoftirqHandler :=
  events.foldl SoftirqEvent.after none

def softirqContext : Option SoftirqHandler → Int32
  | some handler => handler.nr
  | none => nrSoftirqs

theorem cpu_data (cpu : Nat) (events : List (Nat × SoftirqEvent)) (cpus : Nat → PerCpuWperfData) :
    events.foldl cpuStep cpus cpu = (onCpu cpu events).foldl SoftirqEvent.apply (cpus cpu) := by
  induction events generalizing cpus with
  | nil => rfl
  | cons event rest ih =>
      unfold onCpu at ih ⊢
      rw [List.foldl_cons, ih]
      by_cases here : event.1 = cpu
      · rw [List.filter_cons_of_pos (by simpa using here), List.map_cons, List.foldl_cons]
        unfold cpuStep
        rw [here, Function.update_self]
      · rw [List.filter_cons_of_neg (by simpa using here)]
        unfold cpuStep
        rw [Function.update_of_ne fun same => here same.symm]

theorem entry_handler_eq (handler : SoftirqHandler) (data : PerCpuWperfData) :
    handler.krp.entryHandler data = { data with softirqsNr := handler.nr } := by
  cases handler <;> rfl

theorem handler_eq (handler : SoftirqHandler) (data : PerCpuWperfData) :
    handler.krp.handler data = { data with softirqsNr := nrSoftirqs } := by
  cases handler <;> rfl

/-- What the data of a CPU says: the number of the handler that runs, if one has
been entered. -/
structure Tracks (data : PerCpuWperfData) (running : Option SoftirqHandler) (entered : Bool) :
    Prop where
  nr : data.softirqsNr = if entered then softirqContext running else 0
  idle : entered = false → running = none

theorem apply_tracks (data : PerCpuWperfData) (running : Option SoftirqHandler) (entered : Bool)
    (tracks : Tracks data running entered) (event : SoftirqEvent)
    (follows : event.follows running = true) :
    Tracks (event.apply data) (event.after running) (entered || event.isEntry) := by
  cases event with
  | enter handler =>
      constructor
      · change (handler.krp.entryHandler data).softirqsNr = if (entered || true) then _ else 0
        rw [entry_handler_eq, Bool.or_true]
        rfl
      · intro none
        change (entered || true) = false at none
        rw [Bool.or_true] at none
        cases none
  | leave handler =>
      -- a handler that returns has been entered
      have began : entered = true := by
        by_contra none
        have idle := tracks.idle (eq_false_of_ne_true none)
        rw [idle] at follows
        exact absurd follows (by simp [SoftirqEvent.follows])
      constructor
      · change (handler.krp.handler data).softirqsNr = if (entered || false) then _ else 0
        rw [handler_eq, began]
        rfl
      · exact fun _ => rfl
  | doSoftirqEnt tsc =>
      change Tracks _ running (entered || false)
      rw [Bool.or_false]
      exact ⟨tracks.nr, tracks.idle⟩
  | wakeUp hit =>
      change Tracks data running (entered || false)
      rw [Bool.or_false]
      exact tracks

theorem run_tracks (data : PerCpuWperfData) (running : Option SoftirqHandler) (entered : Bool)
    (tracks : Tracks data running entered) (events : List SoftirqEvent)
    (alternate : alternates running events = true) :
    Tracks (events.foldl SoftirqEvent.apply data) (events.foldl SoftirqEvent.after running)
      (entered || events.any SoftirqEvent.isEntry) := by
  induction events generalizing data running entered with
  | nil =>
      rw [List.any_nil, Bool.or_false]
      exact tracks
  | cons event rest ih =>
      obtain ⟨follows, later⟩ := Bool.and_eq_true_iff.mp alternate
      rw [List.foldl_cons, List.foldl_cons, List.any_cons, ← Bool.or_assoc]
      exact ih _ _ _ (apply_tracks data running entered tracks event follows) later

theorem record_context (hit : WakeHit) (data : PerCpuWperfData) :
    (hit.record data).inWhichCtx = data.softirqsNr := rfl

/-- After any events on all CPUs, a wakeup on one of them is recorded with the
softirq whose handler runs there, or with none, exactly when a handler has been
entered on that CPU before. -/
theorem wakeup_context_iff (events : List (Nat × SoftirqEvent)) (cpu : Nat)
    (alternate : alternates none (onCpu cpu events) = true) (hit : WakeHit) :
    (hit.record (events.foldl cpuStep wperfCpuData cpu)).inWhichCtx =
        softirqContext (runningAfter (onCpu cpu events)) ↔
      ∃ handler, .enter handler ∈ onCpu cpu events := by
  have tracks := run_tracks (wperfCpuData cpu) none false ⟨rfl, fun _ => rfl⟩ (onCpu cpu events)
    alternate
  rw [Bool.false_or] at tracks
  have entries : (onCpu cpu events).any SoftirqEvent.isEntry = true ↔
      ∃ handler, .enter handler ∈ onCpu cpu events := by
    rw [List.any_eq_true]
    constructor
    · rintro ⟨event, member, entry⟩
      cases event with
      | enter handler => exact ⟨handler, member⟩
      | leave handler => cases entry
      | doSoftirqEnt tsc => cases entry
      | wakeUp hit => cases entry
    · rintro ⟨handler, member⟩
      exact ⟨.enter handler, member, rfl⟩
  rw [record_context, cpu_data, tracks.nr, ← entries]
  unfold runningAfter
  cases entered : (onCpu cpu events).any SoftirqEvent.isEntry with
  | true => simp
  | false =>
      rw [tracks.idle entered, if_neg Bool.false_ne_true]
      exact iff_of_false (by decide) Bool.false_ne_true

def wakerTask : Task := ⟨.named "ksoftirqd/0", 3, 0⟩

def sleeperTask : Task := ⟨.named "sshd", 7, 1⟩

def wakeHit : WakeHit where
  p := sleeperTask
  tsc := 500
  current := wakerTask
  behindSwapper := Vector.replicate 8 'x'
  slot := ⟨0, 0, wakerTask.comm, wakerTask.comm, 0, 0, 0, 0, 0⟩

theorem timer_wakeup_context :
    alternates none (onCpu 0 [(0, .doSoftirqEnt 400), (0, .enter .runTimerSoftirq)]) = true ∧
      ((wakeHit.record ([(0, .doSoftirqEnt 400), (0, .enter .runTimerSoftirq)].foldl cpuStep
          wperfCpuData 0)).inWhichCtx =
          softirqContext (runningAfter
            (onCpu 0 [(0, .doSoftirqEnt 400), (0, .enter .runTimerSoftirq)])) ↔
        ∃ handler, .enter handler ∈
          onCpu 0 [(0, .doSoftirqEnt 400), (0, .enter .runTimerSoftirq)]) :=
  ⟨by decide, wakeup_context_iff [(0, .doSoftirqEnt 400), (0, .enter .runTimerSoftirq)] 0
    (by decide) wakeHit⟩

/-- Before the first handler a wakeup is recorded with the number of
`HI_SOFTIRQ`. -/
theorem first_wakeup_looks_like_tasklet :
    alternates none (onCpu 0 [(0, .doSoftirqEnt 400)]) = true ∧
      runningAfter (onCpu 0 [(0, .doSoftirqEnt 400)]) = none ∧
      (wakeHit.record ([(0, .doSoftirqEnt 400)].foldl cpuStep wperfCpuData 0)).inWhichCtx = 0 ∧
      (wakeHit.record ([(0, .doSoftirqEnt 400)].foldl cpuStep wperfCpuData 0)).inWhichCtx ≠
        softirqContext (runningAfter (onCpu 0 [(0, .doSoftirqEnt 400)])) :=
  ⟨by decide, by decide, by decide, by decide⟩

end WPerf.Module
