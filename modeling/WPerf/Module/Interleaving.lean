import WPerf.Library.Lock
import WPerf.Module.Arming
import WPerf.Module.DiskCounts
import WPerf.Module.FileCalls

/-!
# Calls under one lock

Any number of threads write and read the filter and output files of both events
under `event_mutex`, statement by statement, while the probes are called at any
time. What they leave and what they hand back is what the calls do one after
another, in the order in which they released the lock.
-/

namespace WPerf.Module

open WPerf.Library
open WPerf.Library.Lock
open WPerf.Library.Movers

set_option autoImplicit false

inductive EventStmt where
  | disk (stmt : Threads.Stmt DiskUtils.panel Locals Fault)
  | tx (stmt : Threads.Stmt TxStat.panel Locals Fault)

inductive ProbeCall where
  | disk (hit : PartHit)
  | tx (hit : TxStat.Send)
deriving DecidableEq, Repr

inductive EventCall where
  | disk (call : FileCall)
  | tx (call : FileCall)
deriving DecidableEq, Repr

namespace EventCall

def lines : EventCall → List EventStmt
  | disk call => (DiskUtils.lines call).map .disk
  | tx call => (TxStat.lines call).map .tx

def returned : EventCall → Locals → Returned
  | disk call => call.returned fitsRow
  | tx call => call.returned wellFormed

end EventCall

namespace Events

def act : EventStmt → Events → Locals → Except Fault (Events × Locals × List EventStmt)
  | .disk stmt, s, l => (stmt.act s.disk l).map fun result =>
      ({ s with disk := result.1 }, result.2.1, result.2.2.map .disk)
  | .tx stmt, s, l => (stmt.act s.tx l).map fun result =>
      ({ s with tx := result.1 }, result.2.1, result.2.2.map .tx)

def probeCalled (s : Events) : ProbeCall → Except Fault Events
  | .disk hit => (s.disk.partRoundStats hit).map fun disk => { s with disk := disk }
  | .tx hit => (s.tx.send hit).map fun tx => { s with tx := tx }

def code : Code EventStmt Events Locals ProbeCall Fault := ⟨act, probeCalled⟩

def perform (s : Events) : EventCall → Except Fault (Returned × Events)
  | .disk call => (s.disk.perform call).map fun result => (result.1, { s with disk := result.2 })
  | .tx call => (s.tx.perform call).map fun result => (result.1, { s with tx := result.2 })

def diskPart : Component (Threads.code DiskUtils.panel DiskUtils.partRoundStats) code where
  get := Events.disk
  put s disk := { s with disk := disk }
  stmt := .disk
  get_put _ _ := rfl
  put_get _ := rfl
  put_put _ _ _ := rfl
  act_eq _ _ _ := rfl
  hit_cases h := by
    cases h with
    | disk hit => exact Or.inl ⟨hit, fun _ => rfl⟩
    | tx hit =>
        refine Or.inr fun s t ran => ?_
        change (s.tx.send hit).map _ = _ at ran
        obtain ⟨tx, sent, same⟩ := (Fallible.map_eq_ok_iff _ _ _).mp ran
        rw [← same]
        exact ⟨rfl, fun disk => (Fallible.map_eq_ok_iff _ _ _).mpr ⟨tx, sent, rfl⟩⟩

def txPart : Component (Threads.code TxStat.panel TxStat.send) code where
  get := Events.tx
  put s tx := { s with tx := tx }
  stmt := .tx
  get_put _ _ := rfl
  put_get _ := rfl
  put_put _ _ _ := rfl
  act_eq _ _ _ := rfl
  hit_cases h := by
    cases h with
    | tx hit => exact Or.inl ⟨hit, fun _ => rfl⟩
    | disk hit =>
        refine Or.inr fun s t ran => ?_
        change (s.disk.partRoundStats hit).map _ = _ at ran
        obtain ⟨disk, counted, same⟩ := (Fallible.map_eq_ok_iff _ _ _).mp ran
        rw [← same]
        exact ⟨rfl, fun tx => (Fallible.map_eq_ok_iff _ _ _).mpr ⟨disk, counted, rfl⟩⟩

theorem lines_absorb (call : EventCall) : code.Absorbs call.lines := by
  cases call with
  | disk call => exact (diskPart.phased (DiskUtils.lines_phased call)).absorbs
  | tx call => exact (txPart.phased (TxStat.lines_phased call)).absorbs

theorem lines_perform (call : EventCall) {s s' : Events} {l l' : Locals}
    (alone : code.Alone call.lines s l s' l') : s.perform call = .ok (call.returned l', s') := by
  cases call with
  | disk call =>
      obtain ⟨disk, alonePart, same⟩ := diskPart.alone alone
      rw [same]
      exact (Fallible.map_eq_ok_iff _ _ _).mpr ⟨_, DiskUtils.lines_perform call alonePart, rfl⟩
  | tx call =>
      obtain ⟨tx, alonePart, same⟩ := txPart.alone alone
      rw [same]
      exact (Fallible.map_eq_ok_iff _ _ _).mpr ⟨_, TxStat.lines_perform call alonePart, rfl⟩

variable {Thread : Type}

/-- Calls and calls of the probes one after another, each file call with the
thread's variables at its end. -/
def Happens : Events → List (Entry Thread EventCall Locals ProbeCall) → Events → Prop
  | s, [], t => s = t
  | s, .job _ call frame :: rest, t =>
      ∃ next, s.perform call = .ok (call.returned frame, next) ∧ Happens next rest t
  | s, .hit h :: rest, t => ∃ next, s.probeCalled h = .ok next ∧ Happens next rest t

theorem serial_happens (log : List (Entry Thread EventCall Locals ProbeCall)) (s t : Events)
    (serial : Serial code EventCall.lines s log t) : Happens s log t := by
  induction log generalizing s with
  | nil => exact serial
  | cons entry rest ih =>
      cases entry with
      | job thread call frame =>
          obtain ⟨before, next, alone, later⟩ := serial
          exact ⟨next, lines_perform call alone, ih next later⟩
      | hit h =>
          obtain ⟨next, called, later⟩ := serial
          exact ⟨next, called, ih next later⟩

end Events

/-- However the statements of the threads and the calls of the probes fall,
whenever `event_mutex` is free the calls that have ended did what they do one at
a time in the order in which they released it: the same state, the same values
handed back, each thread's calls in the thread's order, and no call of a probe
that did not happen. -/
theorem calls_one_at_a_time {Thread : Type} [DecidableEq Thread] (s : Events)
    (frame : Thread → Locals) (calls : Thread → List EventCall)
    (moves : List (Move Thread ProbeCall)) (final : Crowd Thread EventStmt Events Locals)
    (ran : Runs.run (step Events.code) (start EventCall.lines s frame calls) moves = .ok final)
    (free : final.owner = none) :
    ∃ log : List (Entry Thread EventCall Locals ProbeCall), s.Happens log final.shared ∧
      final.released = log.filterMap Entry.released ∧
      (∀ thread, ∃ left, calls thread = log.filterMap (Entry.jobOf thread) ++ left ∧
        final.todo thread = program EventCall.lines left) ∧
      (log.filterMap Entry.interruption).Sublist (moves.filterMap Move.interruption) := by
  obtain ⟨log, accounts⟩ := run_serial (fun _ call _ => Events.lines_absorb call) frame moves ran free
  exact ⟨log, Events.serial_happens log s final.shared accounts.serial, accounts.released,
    accounts.order, accounts.hits⟩

def twoReaders : List (Move Bool ProbeCall) :=
  [.turn true, .turn true, .hit (.disk (DiskUtils.busyDisk "sda".toList)), .turn true, .turn true, .turn true,
    .turn false, .turn false, .turn false, .turn false, .turn false]

theorem two_readers_one_at_a_time :
    ∃ final, Runs.run (step Events.code) (start EventCall.lines Events.init (fun _ => .start)
        fun _ => [.disk .filterRead]) twoReaders = .ok final ∧
      ∃ log : List (Entry Bool EventCall Locals ProbeCall), Events.init.Happens log final.shared ∧
        final.released = log.filterMap Entry.released ∧
        (∀ thread, ∃ left, [.disk .filterRead] = log.filterMap (Entry.jobOf thread) ++ left ∧
          final.todo thread = program EventCall.lines left) ∧
        (log.filterMap Entry.interruption).Sublist (twoReaders.filterMap Move.interruption) :=
  ⟨_, rfl, calls_one_at_a_time Events.init (fun _ => .start) (fun _ => [.disk .filterRead]) twoReaders
    _ rfl rfl⟩

end WPerf.Module
