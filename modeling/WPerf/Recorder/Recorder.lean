import WPerf.Recorder.CopyLoop

/-!
# Stopping the recorder

The recorder while `uv_run` runs: a signal handle, the timer of the period, the
copies of the event instances and a process handle for each worker. A SIGINT
and the end of the period both run `cleanup` and switch off the handle of the
other. Only the end of the period leaves nothing active: the timer stops when
it fires, and the handler of SIGINT does not stop its own handle.

What libuv makes of a process handle is a parameter, since setting up and
recording spawn on the same handle. The results need of it that a child whose
pid the handle holds runs its exit callback, and only if there are workers.
-/

namespace WPerf.Recorder

open WPerf.Library

set_option autoImplicit false

def sigintNumber : Int := 2

inductive SigCallback where
  | sigIgnore
  | sigCleanup
deriving DecidableEq, Repr

structure DebugWrite where
  file : String
  text : String
deriving DecidableEq, Repr

def basedir : String := "/sys/kernel/debug/tracing/instances"

def instanceEvents : List (String × List String) :=
  [("switch", ["__switch_to", "try_to_wake_up", "wake_up_new_task", "do_exit"]),
    ("softirq", ["__do_softirq_ret"])]

def getInstanceFilter (name event : String) : String :=
  basedir ++ "/" ++ name ++ "/events/wperf/" ++ event ++ "/filter"

def getInstanceEnable (name event : String) : String :=
  basedir ++ "/" ++ name ++ "/events/wperf/" ++ event ++ "/enable"

def writeDebugfs (text : String) (getFname : String → String → String) : List DebugWrite :=
  instanceEvents.flatMap fun pair => pair.2.map fun event => ⟨getFname pair.1 event, text⟩

/-- The operations of libuv on a process handle: `uv_spawn` with the pid of the
child if there is one, the end of a child, which says whether the exit callback
of the handle runs, and `uv_close`. -/
structure ProcessHandles (Handle : Type) where
  zeroed : Handle
  pid : Handle → Int
  active : Handle → Bool
  spawn : Option Int → Handle → Handle
  childEnds : Int → Handle → Handle × Bool
  close : Handle → Handle

/-- A child that a handle holds runs its exit callback when it ends. The rest is
what any handle does: it holds the child spawned last until its callback closes
it, and no end of a child makes it active. -/
structure ProcessHandles.CallsBack {Handle : Type} (libuv : ProcessHandles Handle) : Prop where
  calls : ∀ pid handle, libuv.active handle = true → libuv.pid handle = pid →
    (libuv.childEnds pid handle).2 = true
  holds : ∀ pid handle, libuv.pid (libuv.spawn (some pid) handle) = pid
  keeps : ∀ pid handle, libuv.pid (libuv.childEnds pid handle).1 = libuv.pid handle
  rests : ∀ pid handle, libuv.active (libuv.childEnds pid handle).1 = true →
    libuv.active handle = true
  closes : ∀ handle, libuv.active (libuv.close handle) = false

structure IoWorker (Handle : Type) where
  fd : Int
  req : Handle
  closed : List Int
deriving DecidableEq, Repr

namespace IoWorker

variable {Handle : Type} (libuv : ProcessHandles Handle) (worker : IoWorker Handle)

def opened (fd : Int) : IoWorker Handle := ⟨fd, libuv.zeroed, []⟩

def uvSpawn (result : Option Int) : IoWorker Handle :=
  { worker with req := libuv.spawn result worker.req }

def closeProcessHandle : IoWorker Handle :=
  { worker with closed := worker.closed ++ [worker.fd], req := libuv.close worker.req }

def CalledBack (pid : Int) : Prop := (libuv.childEnds pid worker.req).2 = true

instance (pid : Int) : Decidable (worker.CalledBack libuv pid) :=
  inferInstanceAs (Decidable (_ = true))

def childEnds (pid : Int) : IoWorker Handle :=
  let seen := { worker with req := (libuv.childEnds pid worker.req).1 }
  if worker.CalledBack libuv pid then seen.closeProcessHandle libuv else seen

end IoWorker

inductive Line where
  | ignored (signum : Int)
  | received (signum : Int)
  | processExited (status termSignal : Int)
deriving DecidableEq, Repr

/-- `struct recorder` with its handles, the processes that run, the signals
sent to them and the writes to debugfs. -/
structure RecorderState (Handle : Type) where
  sigHandler : Option SigCallback
  expireHandler : Bool
  expired : Bool
  events : List EventCtx
  workers : List (IoWorker Handle)
  children : List Int
  killed : List Int
  debugfs : List DebugWrite
  lines : List Line
deriving DecidableEq, Repr

/-- What happens while `uv_run` runs. `written` says whether the writes to
debugfs succeed. -/
inductive RecorderOp where
  | sigint (written : Bool)
  | expire (written : Bool)
  | completed (index : Nat) (op : CopyOp) (completes : op ≠ .expired)
  | exited (pid status termSignal : Int)

inductive Halt where
  | refused (refusal : Refusal)
  | absent
  | terminated
  | exits
deriving DecidableEq, Repr

namespace RecorderState

section Step

variable {Handle : Type} (libuv : ProcessHandles Handle) (s : RecorderState Handle)

def cleanup : RecorderState Handle :=
  { s with
    expired := true
    killed := s.killed ++ (s.workers.map fun worker => libuv.pid worker.req).reverse
    debugfs := s.debugfs ++ writeDebugfs "0" getInstanceEnable ++
      writeDebugfs "0" getInstanceFilter }

def sigCleanup (signum : Int) : RecorderState Handle :=
  let s := s.cleanup libuv
  { s with expireHandler := false, lines := s.lines ++ [.received signum] }

def timerExpire : RecorderState Handle :=
  let s := s.cleanup libuv
  { s with sigHandler := none }

def childExits (pid status termSignal : Int) : RecorderState Handle :=
  { s with
    children := s.children.erase pid
    workers := s.workers.map (IoWorker.childEnds libuv · pid)
    lines := s.lines ++ (s.workers.filter (IoWorker.CalledBack libuv · pid)).map fun _ =>
      .processExited status termSignal }

/-- One event of the loop. Without a handler SIGINT ends the process, as a
failed write to debugfs does; the timer is stopped before its callback runs. -/
def step : RecorderOp → Except Halt (RecorderState Handle)
  | .sigint written =>
      match s.sigHandler with
      | none => .error .terminated
      | some .sigIgnore => .ok { s with lines := s.lines ++ [.ignored sigintNumber] }
      | some .sigCleanup =>
          if written then .ok (s.sigCleanup libuv sigintNumber) else .error .exits
  | .expire written =>
      if s.expireHandler then
        if written then .ok ({ s with expireHandler := false }.timerExpire libuv) else .error .exits
      else .error .absent
  | .completed index op _ =>
      match s.events[index]? with
      | none => .error .absent
      | some event =>
          match Copy.step ⟨event, s.expired⟩ op with
          | .error refusal => .error (.refused refusal)
          | .ok copy => .ok { s with events := s.events.set index copy.event }
  | .exited pid status termSignal =>
      if pid ∈ s.children then .ok (s.childExits libuv pid status termSignal) else .error .absent

end Step

end RecorderState

/-- The results of starting a worker: its output file, the first `uv_spawn` and
the second one, which must succeed. -/
structure Spawned where
  fd : Int
  first : Option Int
  second : Int
deriving DecidableEq, Repr

section Start

variable {Handle : Type} (libuv : ProcessHandles Handle)

/-- Both calls of `uv_spawn` are on the same handle. -/
def Spawned.worker (spawned : Spawned) : IoWorker Handle :=
  ((IoWorker.opened libuv spawned.fd).uvSpawn libuv spawned.first).uvSpawn libuv
    (some spawned.second)

/-- The recorder when `recorder_run` calls `uv_run`. `inputs` are the buffers
and the output files of the instances. -/
def recorderRun (filterExpr : String) (inputs : List (List UInt8 × Int))
    (spawned : List Spawned) : RecorderState Handle where
  sigHandler := some .sigCleanup
  expireHandler := true
  expired := false
  events := inputs.map fun input => recordEvent input.1 input.2
  workers := spawned.map (Spawned.worker libuv)
  children := (spawned.flatMap fun result => result.first.toList) ++
    (spawned.map Spawned.second).reverse
  killed := []
  debugfs := writeDebugfs filterExpr getInstanceFilter ++ writeDebugfs "1" getInstanceEnable
  lines := []

end Start

def RecorderOp.interrupts : RecorderOp → Bool
  | .sigint _ => true
  | _ => false

namespace RecorderState

variable {Handle : Type}

structure Ended (s : RecorderState Handle) : Prop where
  cleaned : s.expired = true
  closed : ∀ event ∈ s.events, event.closes = [event.fd0, event.fd1]
  exited : s.children = []

/-- No signal, timer or process handle is active and no request is pending. A
running retry timer counts as pending. -/
structure Idle (libuv : ProcessHandles Handle) (s : RecorderState Handle) : Prop where
  signal : s.sigHandler = none
  timer : s.expireHandler = false
  processes : ∀ worker ∈ s.workers, libuv.active worker.req = false
  requests : ∀ event ∈ s.events, event.pending = []

structure Handles (s : RecorderState Handle) (interrupted : Bool) : Prop where
  recording : s.expired = false →
    s.sigHandler = some .sigCleanup ∧ s.expireHandler = true ∧ interrupted = false
  stopped : s.expired = true →
    s.expireHandler = false ∧ s.sigHandler = if interrupted then some .sigCleanup else none

def Moves (libuv : ProcessHandles Handle) (s : RecorderState Handle) :
    RecorderOp → RecorderState Handle → Prop
  | .sigint _, t =>
      (s.sigHandler = some .sigIgnore ∧ t = { s with lines := s.lines ++ [.ignored sigintNumber] }) ∨
        s.sigHandler = some .sigCleanup ∧ t = s.sigCleanup libuv sigintNumber
  | .expire _, t => s.expireHandler = true ∧ t = { s with expireHandler := false }.timerExpire libuv
  | .completed index op _, t =>
      ∃ event copy, s.events[index]? = some event ∧ Copy.step ⟨event, s.expired⟩ op = .ok copy ∧
        t = { s with events := s.events.set index copy.event }
  | .exited pid status termSignal, t =>
      pid ∈ s.children ∧ t = s.childExits libuv pid status termSignal

theorem step_moves (libuv : ProcessHandles Handle) (s t : RecorderState Handle) (op : RecorderOp)
    (ran : s.step libuv op = .ok t) : s.Moves libuv op t := by
  cases op with
  | sigint written =>
      unfold step at ran
      dsimp only at ran
      split at ran
      · cases ran
      · next ignores => exact Or.inl ⟨ignores, (Except.ok.inj ran).symm⟩
      · next cleans =>
          split_ifs at ran
          exact Or.inr ⟨cleans, (Except.ok.inj ran).symm⟩
  | expire written =>
      unfold step at ran
      cases armed : s.expireHandler with
      | false =>
          rw [armed] at ran
          cases ran
      | true =>
          rw [armed] at ran
          cases written with
          | false => cases ran
          | true => exact ⟨armed, (Except.ok.inj ran).symm⟩
  | completed index op completes =>
      unfold step at ran
      cases found : s.events[index]? with
      | none =>
          dsimp only at ran
          rw [found] at ran
          cases ran
      | some event =>
          dsimp only at ran
          rw [found] at ran
          cases done : Copy.step ⟨event, s.expired⟩ op with
          | error refusal =>
              dsimp only at ran
              rw [done] at ran
              cases ran
          | ok copy =>
              dsimp only at ran
              rw [done] at ran
              exact ⟨event, copy, found, done, (Except.ok.inj ran).symm⟩
  | exited pid status termSignal =>
      unfold step at ran
      dsimp only at ran
      split_ifs at ran with running
      exact ⟨running, (Except.ok.inj ran).symm⟩

theorem Handles.unchanged {s t : RecorderState Handle} {interrupted : Bool}
    (handles : s.Handles interrupted) (expired : t.expired = s.expired)
    (signal : t.sigHandler = s.sigHandler) (timer : t.expireHandler = s.expireHandler) :
    t.Handles (interrupted || false) := by
  rw [Bool.or_false]
  constructor
  · intro still
    rw [signal, timer]
    exact handles.recording (expired.symm.trans still)
  · intro done
    rw [signal, timer]
    exact handles.stopped (expired.symm.trans done)

theorem step_handles (libuv : ProcessHandles Handle) (s t : RecorderState Handle)
    (op : RecorderOp) (interrupted : Bool) (handles : s.Handles interrupted)
    (moves : s.Moves libuv op t) :
    t.Handles (interrupted || op.interrupts) := by
  cases op with
  | sigint written =>
      rcases moves with ⟨ignores, _⟩ | ⟨cleans, same⟩
      · have other : s.sigHandler ≠ some .sigIgnore := by
          cases past : s.expired with
          | false =>
              rw [(handles.recording past).1]
              decide
          | true =>
              rw [(handles.stopped past).2]
              cases interrupted <;> decide
        exact absurd ignores other
      · rw [same]
        constructor
        · intro still
          cases still
        · intro _
          refine ⟨rfl, cleans.trans ?_⟩
          simp [RecorderOp.interrupts]
  | expire written =>
      obtain ⟨armed, same⟩ := moves
      -- the timer is stopped once cleanup has run, so nothing came before it
      have calm : interrupted = false := by
        cases past : s.expired with
        | false => exact (handles.recording past).2.2
        | true =>
            have stopped := (handles.stopped past).1
            rw [armed] at stopped
            cases stopped
      rw [same, calm]
      constructor
      · intro still
        cases still
      · exact fun _ => ⟨rfl, rfl⟩
  | completed index op completes =>
      obtain ⟨_, _, _, _, same⟩ := moves
      rw [same]
      exact handles.unchanged rfl rfl rfl
  | exited pid status termSignal =>
      obtain ⟨_, same⟩ := moves
      rw [same]
      exact handles.unchanged rfl rfl rfl

theorem run_handles (libuv : ProcessHandles Handle) (s t : RecorderState Handle)
    (ops : List RecorderOp) (interrupted : Bool) (handles : s.Handles interrupted)
    (ran : Runs.run (step libuv) s ops = .ok t) :
    t.Handles (interrupted || ops.any RecorderOp.interrupts) := by
  induction ops generalizing s interrupted with
  | nil =>
      rw [← Except.ok.inj ran, List.any_nil, Bool.or_false]
      exact handles
  | cons op rest ih =>
      obtain ⟨next, first, remaining⟩ := (Runs.run_cons_iff s t op rest).mp ran
      have moves := step_moves libuv s next op first
      rw [List.any_cons, ← Bool.or_assoc]
      exact ih next _ (step_handles libuv s next op interrupted handles moves) remaining

/-- Every context is what a run of the copy loop alone makes of it. -/
def Copies (inputs : List (List UInt8 × Int)) (s : RecorderState Handle) : Prop :=
  ∀ (index : Nat) (event : EventCtx), s.events[index]? = some event →
    ∃ input copyOps, inputs[index]? = some input ∧
      Runs.run Copy.step (.start input.1 input.2) copyOps = .ok ⟨event, s.expired⟩

theorem Copies.expire {inputs : List (List UInt8 × Int)} {s t : RecorderState Handle}
    (copies : s.Copies inputs) (events : t.events = s.events) (expired : t.expired = true) :
    t.Copies inputs := by
  intro index event found
  rw [events] at found
  obtain ⟨input, copyOps, given, ran⟩ := copies index event found
  refine ⟨input, copyOps ++ [.expired], given, ?_⟩
  rw [expired]
  exact (Runs.run_concat_iff _ _ _ _).mpr ⟨_, ran, rfl⟩

theorem step_copies (libuv : ProcessHandles Handle) (inputs : List (List UInt8 × Int))
    (s t : RecorderState Handle) (op : RecorderOp) (copies : s.Copies inputs)
    (moves : s.Moves libuv op t) : t.Copies inputs := by
  cases op with
  | sigint written =>
      rcases moves with ⟨_, same⟩ | ⟨_, same⟩
      · rw [same]
        exact copies
      · rw [same]
        exact copies.expire rfl rfl
  | expire written =>
      rw [moves.2]
      exact copies.expire rfl rfl
  | completed index op completes =>
      obtain ⟨event, copy, found, done, same⟩ := moves
      rw [same]
      intro other event' found'
      rw [List.getElem?_set] at found'
      split_ifs at found' with here bound
      · obtain ⟨input, copyOps, given, copied⟩ := copies index event found
        have flag : copy.expired = s.expired := Copy.step_flag _ _ op completes done
        rw [← here, ← Option.some.inj found']
        refine ⟨input, copyOps ++ [op], given, (Runs.run_concat_iff _ _ _ _).mpr ⟨_, copied, ?_⟩⟩
        rw [done, ← flag]
      · exact copies other event' found'
  | exited pid status termSignal =>
      rw [moves.2]
      exact copies

/-- A process handle is active only as long as the process it holds runs. -/
def Watched (libuv : ProcessHandles Handle) (s : RecorderState Handle) : Prop :=
  ∀ worker ∈ s.workers, libuv.active worker.req = true → libuv.pid worker.req ∈ s.children

theorem step_watched {libuv : ProcessHandles Handle} (callsBack : libuv.CallsBack)
    (s t : RecorderState Handle) (op : RecorderOp) (watched : s.Watched libuv)
    (moves : s.Moves libuv op t) : t.Watched libuv := by
  cases op with
  | sigint written =>
      rcases moves with ⟨_, same⟩ | ⟨_, same⟩
      · rw [same]
        exact watched
      · rw [same]
        exact watched
  | expire written =>
      rw [moves.2]
      exact watched
  | completed index op completes =>
      obtain ⟨_, _, _, _, same⟩ := moves
      rw [same]
      exact watched
  | exited pid status termSignal =>
      rw [moves.2]
      intro worker member active
      obtain ⟨before, inWorkers, rfl⟩ := List.mem_map.mp member
      unfold IoWorker.childEnds at active ⊢
      dsimp only at active ⊢
      split_ifs at active ⊢ with called
      · exact absurd active (Bool.eq_false_iff.mp (callsBack.closes _))
      · have wasActive := callsBack.rests pid before.req active
        rw [callsBack.keeps]
        have different : libuv.pid before.req ≠ pid :=
          fun own => called (callsBack.calls pid before.req wasActive own)
        exact (List.mem_erase_of_ne different).mpr (watched before inWorkers wasActive)

section Start

variable (libuv : ProcessHandles Handle) (filterExpr : String)
  (inputs : List (List UInt8 × Int)) (spawned : List Spawned)

theorem start_handles : (recorderRun libuv filterExpr inputs spawned).Handles false where
  recording := fun _ => ⟨rfl, rfl, rfl⟩
  stopped := fun done => by cases done

theorem start_copies : (recorderRun libuv filterExpr inputs spawned).Copies inputs := by
  intro index event found
  obtain ⟨input, given, made⟩ := Option.map_eq_some_iff.mp ((List.getElem?_map ..).symm.trans found)
  rw [← made]
  exact ⟨input, [], given, rfl⟩

theorem start_watched (callsBack : libuv.CallsBack) :
    (recorderRun libuv filterExpr inputs spawned).Watched libuv := by
  intro worker member _
  obtain ⟨result, inSpawned, rfl⟩ := List.mem_map.mp member
  have held : libuv.pid (result.worker libuv).req = result.second := callsBack.holds _ _
  rw [held]
  exact List.mem_append_right _ (List.mem_reverse.mpr (List.mem_map_of_mem inSpawned))

end Start

theorem run_copies (libuv : ProcessHandles Handle) (filterExpr : String)
    (inputs : List (List UInt8 × Int)) (spawned : List Spawned) (ops : List RecorderOp)
    (final : RecorderState Handle)
    (ran : Runs.run (step libuv) (recorderRun libuv filterExpr inputs spawned) ops = .ok final) :
    final.Copies inputs := by
  have keeps : ∀ (s : RecorderState Handle) op t, True → s.Copies inputs →
      step libuv s op = .ok t → t.Copies inputs :=
    fun s op t _ copies first =>
      step_copies libuv inputs s t op copies (step_moves libuv s t op first)
  exact Runs.run_invariant keeps (start_copies libuv filterExpr inputs spawned)
    (fun _ _ => trivial) ran

theorem run_workers (libuv : ProcessHandles Handle) (s final : RecorderState Handle)
    (ops : List RecorderOp) (ran : Runs.run (step libuv) s ops = .ok final) :
    final.workers.length = s.workers.length := by
  have keeps : ∀ (current : RecorderState Handle) op t, True →
      current.workers.length = s.workers.length → step libuv current op = .ok t →
        t.workers.length = s.workers.length := by
    intro current op t _ same first
    have moves := step_moves libuv current t op first
    cases op with
    | sigint written =>
        rcases moves with ⟨_, rfl⟩ | ⟨_, rfl⟩ <;> exact same
    | expire written =>
        rw [moves.2]
        exact same
    | completed index op completes =>
        obtain ⟨_, _, _, _, rfl⟩ := moves
        exact same
    | exited pid status termSignal =>
        rw [moves.2]
        exact (List.length_map _).trans same
  exact Runs.run_invariant keeps rfl (fun _ _ => trivial) ran

theorem run_processes (libuv : ProcessHandles Handle) (filterExpr : String)
    (inputs : List (List UInt8 × Int)) (spawned : List Spawned)
    (callsBack : spawned ≠ [] → libuv.CallsBack) (ops : List RecorderOp)
    (final : RecorderState Handle)
    (ran : Runs.run (step libuv) (recorderRun libuv filterExpr inputs spawned) ops = .ok final)
    (exited : final.children = []) :
    ∀ worker ∈ final.workers, libuv.active worker.req = false := by
  by_cases some : spawned = []
  · have none : final.workers = [] := by
      apply List.eq_nil_of_length_eq_zero
      rw [run_workers libuv _ final ops ran, some]
      rfl
    rw [none]
    exact fun worker absent => absurd absent List.not_mem_nil
  · have calls := callsBack some
    have keeps : ∀ (s : RecorderState Handle) op t, True → s.Watched libuv →
        step libuv s op = .ok t → t.Watched libuv :=
      fun s op t _ watched first =>
        step_watched calls s t op watched (step_moves libuv s t op first)
    have watched := Runs.run_invariant keeps (start_watched libuv filterExpr inputs spawned calls)
      (fun _ _ => trivial) ran
    intro worker member
    by_contra running
    have child := watched worker member (Bool.eq_true_of_not_eq_false running)
    rw [exited] at child
    exact List.not_mem_nil child

theorem closed_copy_idle (inputs : List (List UInt8 × Int)) (s : RecorderState Handle)
    (copies : s.Copies inputs) (event : EventCtx) (member : event ∈ s.events)
    (closed : event.closes = [event.fd0, event.fd1]) : event.pending = [] := by
  obtain ⟨index, found⟩ := List.mem_iff_getElem?.mp member
  obtain ⟨input, copyOps, _, ran⟩ := copies index event found
  obtain ⟨phase, held, _⟩ := Copy.run_lacks _ _ 0 copyOps (Copy.start_lacks input.1 input.2) ran
  have closes := held.closes
  by_cases done : phase = .closed
  · rw [held.pending, done]
    rfl
  · rw [if_neg done, closed] at closes
    cases closes

/-- The recorder has ended after a run. Nothing of it is active, so that
`uv_run` returns, exactly if no SIGINT arrived in the run. -/
theorem idle_iff_not_interrupted (libuv : ProcessHandles Handle) (filterExpr : String)
    (inputs : List (List UInt8 × Int)) (spawned : List Spawned)
    (callsBack : spawned ≠ [] → libuv.CallsBack) (ops : List RecorderOp)
    (final : RecorderState Handle)
    (ran : Runs.run (step libuv) (recorderRun libuv filterExpr inputs spawned) ops = .ok final)
    (ended : final.Ended) : final.Idle libuv ↔ ∀ op ∈ ops, op.interrupts = false := by
  have copies := run_copies libuv filterExpr inputs spawned ops final ran
  have handles := run_handles libuv _ final ops false
    (start_handles libuv filterExpr inputs spawned) ran
  obtain ⟨timer, signal⟩ := handles.stopped ended.cleaned
  rw [Bool.false_or] at signal
  have processes := run_processes libuv filterExpr inputs spawned callsBack ops final ran
    ended.exited
  have requests : ∀ event ∈ final.events, event.pending = [] := fun event member =>
    closed_copy_idle inputs final copies event member (ended.closed event member)
  have calm : ops.any RecorderOp.interrupts = false ↔ ∀ op ∈ ops, op.interrupts = false := by
    simp
  rw [← calm]
  constructor
  · intro idle
    rw [idle.signal] at signal
    by_contra interrupted
    rw [if_pos (Bool.eq_true_of_not_eq_false interrupted)] at signal
    cases signal
  · intro none
    rw [none] at signal
    exact ⟨signal, timer, processes, requests⟩

def childHandles : ProcessHandles (Int × Bool) where
  zeroed := (0, false)
  pid := Prod.fst
  active := Prod.snd
  spawn := fun result handle => match result with
    | none => (handle.1, false)
    | some pid => (pid, true)
  childEnds := fun pid handle => (handle, handle.2 && handle.1 == pid)
  close := fun handle => (handle.1, false)

theorem child_handles_call_back : childHandles.CallsBack where
  calls := by
    rintro pid ⟨held, started⟩ active rfl
    rw [show started = true from active]
    simp [childHandles]
  holds := fun _ _ => rfl
  keeps := fun _ _ => rfl
  rests := fun _ _ active => active
  closes := fun _ => rfl

def stopped (stop : RecorderOp) : List RecorderOp :=
  [.completed 0 (.opened 5) (by decide), .completed 1 (.opened 6) (by decide), stop,
    .completed 0 (.read 5 4096 0 []) (by decide), .completed 1 (.read 6 4096 (-11) []) (by decide)]

/-- The period ends over a worker that only the second `uv_spawn` started. -/
theorem period_over_idle :
    ∃ final, Runs.run (step childHandles)
        (recorderRun childHandles "" [([], 3), ([], 4)] [⟨7, none, 101⟩])
        (stopped (.expire true) ++ [.exited 101 0 15]) = .ok final ∧
      final.Ended ∧ final.Idle childHandles := by
  have ended : ∀ final, Runs.run (step childHandles)
      (recorderRun childHandles "" [([], 3), ([], 4)] [⟨7, none, 101⟩])
      (stopped (.expire true) ++ [.exited 101 0 15]) = .ok final → final.Ended := by
    intro final ran
    rw [← Except.ok.inj ran]
    exact ⟨rfl, by decide, rfl⟩
  refine ⟨_, rfl, ended _ rfl, ?_⟩
  exact (idle_iff_not_interrupted childHandles "" [([], 3), ([], 4)] [⟨7, none, 101⟩]
    (fun _ => child_handles_call_back) (stopped (.expire true) ++ [.exited 101 0 15]) _ rfl
    (ended _ rfl)).mpr (by decide)

theorem interrupted_stays_alive :
    ∃ final, Runs.run (step childHandles) (recorderRun childHandles "" [([], 3), ([], 4)] [])
        (stopped (.sigint true)) = .ok final ∧
      final.Ended ∧ final.sigHandler = some .sigCleanup ∧ ¬final.Idle childHandles := by
  refine ⟨_, rfl, ⟨rfl, by decide, rfl⟩, rfl, ?_⟩
  intro idle
  cases idle.signal

end RecorderState

end WPerf.Recorder
