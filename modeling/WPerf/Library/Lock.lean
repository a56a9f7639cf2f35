import Mathlib.Logic.Function.Basic
import WPerf.Library.Movers

/-!
# Threads that share a lock

Any number of threads work through their jobs. A job is a section of code that
its thread executes while it holds the lock, and interruptions may fall
anywhere. If the sections absorb interruptions, then whenever the lock is free
the threads have done what the jobs do one after another, in the order in which
the threads released the lock.
-/

namespace WPerf.Library.Lock

open WPerf.Library.Movers

set_option autoImplicit false

inductive Instr (Stmt : Type) where
  | lock
  | unlock
  | stmt (stmt : Stmt)
deriving DecidableEq, Repr

inductive Stuck (Error : Type) where
  | finished
  | blocked
  | fault (error : Error)
deriving DecidableEq, Repr

inductive Move (Thread Hit : Type) where
  | turn (thread : Thread)
  | hit (hit : Hit)
deriving DecidableEq, Repr

/-- `released` lists the threads in the order in which they released the lock,
each with its data at that time. -/
structure Crowd (Thread Stmt Shared Local : Type) where
  shared : Shared
  owner : Option Thread
  frame : Thread → Local
  todo : Thread → List (Instr Stmt)
  released : List (Thread × Local)

section Crowd

variable {Thread Job Stmt Shared Local Hit Error : Type} [DecidableEq Thread]
  (code : Code Stmt Shared Local Hit Error)

def execute (c : Crowd Thread Stmt Shared Local) (thread : Thread) (rest : List (Instr Stmt)) :
    Instr Stmt → Except (Stuck Error) (Crowd Thread Stmt Shared Local)
  | .lock =>
      if c.owner = none then
        .ok { c with owner := some thread, todo := Function.update c.todo thread rest }
      else .error .blocked
  | .unlock =>
      .ok { c with
        owner := none
        todo := Function.update c.todo thread rest
        released := c.released ++ [(thread, c.frame thread)] }
  | .stmt stmt =>
      match code.act stmt c.shared (c.frame thread) with
      | .error error => .error (.fault error)
      | .ok (shared, frame, more) =>
          .ok { c with
            shared := shared
            frame := Function.update c.frame thread frame
            todo := Function.update c.todo thread (more.map .stmt ++ rest) }

def step (c : Crowd Thread Stmt Shared Local) :
    Move Thread Hit → Except (Stuck Error) (Crowd Thread Stmt Shared Local)
  | .turn thread =>
      match c.todo thread with
      | [] => .error .finished
      | instr :: rest => execute code c thread rest instr
  | .hit h =>
      match code.hit c.shared h with
      | .error error => .error (.fault error)
      | .ok shared => .ok { c with shared := shared }

variable (body : Job → List Stmt)

def instrs (job : Job) : List (Instr Stmt) := .lock :: ((body job).map .stmt ++ [.unlock])

def program (jobs : List Job) : List (Instr Stmt) := jobs.flatMap (instrs body)

def start (shared : Shared) (frame : Thread → Local) (jobs : Thread → List Job) :
    Crowd Thread Stmt Shared Local where
  shared := shared
  owner := none
  frame := frame
  todo thread := program body (jobs thread)
  released := []

/-- What happens in a run of whole jobs: a job of a thread, with the thread's
data at its end, or an interruption. -/
inductive Entry (Thread Job Local Hit : Type) where
  | job (thread : Thread) (job : Job) (frame : Local)
  | hit (hit : Hit)

def Serial : Shared → List (Entry Thread Job Local Hit) → Shared → Prop
  | s, [], s' => s = s'
  | s, .job _ job frame :: rest, s' =>
      ∃ before next, code.Alone (body job) s before next frame ∧ Serial next rest s'
  | s, .hit h :: rest, s' => ∃ next, code.hit s h = .ok next ∧ Serial next rest s'

def Entry.released : Entry Thread Job Local Hit → Option (Thread × Local)
  | job thread _ frame => some (thread, frame)
  | hit _ => none

def Entry.jobOf (thread : Thread) : Entry Thread Job Local Hit → Option Job
  | job other item _ => if other = thread then some item else none
  | hit _ => none

def Entry.interruption : Entry Thread Job Local Hit → Option Hit
  | job _ _ _ => none
  | hit h => some h

def Move.interruption : Move Thread Hit → Option Hit
  | turn _ => none
  | hit h => some h

/-- A log accounts for a crowd whose lock is free: it leads to the shared
state, it has the jobs that were done in the order in which they were done, in
the order of each thread's program, and it has interruptions of the run only. -/
structure Accounts (shared : Shared) (jobs : Thread → List Job) (hits : List Hit)
    (log : List (Entry Thread Job Local Hit)) (c : Crowd Thread Stmt Shared Local) : Prop where
  serial : Serial code body shared log c.shared
  released : c.released = log.filterMap Entry.released
  order : ∀ thread, ∃ left, jobs thread = log.filterMap (Entry.jobOf thread) ++ left ∧
    c.todo thread = program body left
  hits : (log.filterMap Entry.interruption).Sublist hits

/-- What a thread that holds the lock has done of its job, beside the
interruptions since it took the lock. -/
structure Holds (shared : Shared) (jobs : Thread → List Job) (hits : List Hit)
    (log : List (Entry Thread Job Local Hit)) (c : Crowd Thread Stmt Shared Local)
    (thread : Thread) (job : Job) (since : List Hit) : Prop where
  released : c.released = log.filterMap Entry.released
  started : ∃ before frame stmts left, Serial code body shared log before ∧
    jobs thread = log.filterMap (Entry.jobOf thread) ++ job :: left ∧
    c.todo thread = stmts.map .stmt ++ .unlock :: program body left ∧
    ∀ later s' l', code.Beside stmts c.shared (c.frame thread) later s' l' →
      code.Beside (body job) before frame (since ++ later) s' l'
  others : ∀ other, other ≠ thread → ∃ left,
    jobs other = log.filterMap (Entry.jobOf other) ++ left ∧ c.todo other = program body left
  hits : (log.filterMap Entry.interruption ++ since).Sublist hits

def Orderly (shared : Shared) (jobs : Thread → List Job) (hits : List Hit)
    (c : Crowd Thread Stmt Shared Local) : Prop :=
  (c.owner = none ∧ ∃ log, Accounts code body shared jobs hits log c) ∨
    ∃ thread, c.owner = some thread ∧ ∃ job ∈ jobs thread, ∃ log since,
      Holds code body shared jobs hits log c thread job since

variable {code body}

omit [DecidableEq Thread] in
theorem serial_append_iff (s s' : Shared) (front back : List (Entry Thread Job Local Hit)) :
    Serial code body s (front ++ back) s' ↔
      ∃ middle, Serial code body s front middle ∧ Serial code body middle back s' := by
  induction front generalizing s with
  | nil =>
      constructor
      · exact fun serial => ⟨s, rfl, serial⟩
      · rintro ⟨_, rfl, serial⟩
        exact serial
  | cons entry rest ih =>
      cases entry with
      | job thread job frame =>
          constructor
          · intro ⟨before, next, alone, later⟩
            obtain ⟨middle, first, second⟩ := (ih next).mp later
            exact ⟨middle, ⟨before, next, alone, first⟩, second⟩
          · intro ⟨middle, ⟨before, next, alone, first⟩, second⟩
            exact ⟨before, next, alone, (ih next).mpr ⟨middle, first, second⟩⟩
      | hit h =>
          constructor
          · intro ⟨next, interrupted, later⟩
            obtain ⟨middle, first, second⟩ := (ih next).mp later
            exact ⟨middle, ⟨next, interrupted, first⟩, second⟩
          · intro ⟨middle, ⟨next, interrupted, first⟩, second⟩
            exact ⟨next, interrupted, (ih next).mpr ⟨middle, first, second⟩⟩

omit [DecidableEq Thread] in
theorem serial_hits (s s' : Shared) (hits : List Hit) (ran : Runs.run code.hit s hits = .ok s') :
    Serial code body s (hits.map (.hit : Hit → Entry Thread Job Local Hit)) s' := by
  induction hits generalizing s with
  | nil => exact Except.ok.inj ran
  | cons h rest ih =>
      obtain ⟨next, first, remaining⟩ := (Runs.run_cons_iff s s' h rest).mp ran
      exact ⟨next, first, ih next remaining⟩

section Steps

variable {shared : Shared} {jobs : Thread → List Job} {hits : List Hit}
  {log : List (Entry Thread Job Local Hit)} {c : Crowd Thread Stmt Shared Local}

theorem log_of_hits (between : List Hit) :
    (between.map (.hit : Hit → Entry Thread Job Local Hit)).filterMap Entry.released = [] ∧
      (∀ thread, (between.map (.hit : Hit → Entry Thread Job Local Hit)).filterMap
        (Entry.jobOf thread) = []) ∧
      (between.map (.hit : Hit → Entry Thread Job Local Hit)).filterMap Entry.interruption =
        between := by
  refine ⟨?_, fun thread => ?_, ?_⟩
  · rw [List.filterMap_map]
    exact List.filterMap_eq_nil_iff.mpr fun _ _ => rfl
  · rw [List.filterMap_map]
    exact List.filterMap_eq_nil_iff.mpr fun _ _ => rfl
  · rw [List.filterMap_map]
    exact List.filterMap_some

theorem Accounts.interrupted (accounts : Accounts code body shared jobs hits log c) {h : Hit}
    {next : Shared} (ran : code.hit c.shared h = .ok next) :
    Accounts code body shared jobs (hits ++ [h]) (log ++ [.hit h]) { c with shared := next } where
  serial := (serial_append_iff ..).mpr ⟨c.shared, accounts.serial, next, ran, rfl⟩
  released := by
    rw [List.filterMap_append]
    exact accounts.released.trans (List.append_nil _).symm
  order thread := by
    obtain ⟨left, split, todo⟩ := accounts.order thread
    refine ⟨left, ?_, todo⟩
    rw [List.filterMap_append]
    exact split.trans (congrArg (· ++ left) (List.append_nil _).symm)
  hits := by
    rw [List.filterMap_append]
    exact accounts.hits.append (List.Sublist.refl [h])

theorem Accounts.locks (accounts : Accounts code body shared jobs hits log c) {thread : Thread}
    {rest : List (Instr Stmt)} (todo : c.todo thread = .lock :: rest) :
    ∃ job ∈ jobs thread, Holds code body shared jobs hits log
      { c with owner := some thread, todo := Function.update c.todo thread rest } thread job [] := by
  obtain ⟨left, split, program⟩ := accounts.order thread
  rw [todo] at program
  cases left with
  | nil => cases program
  | cons job later =>
      obtain ⟨_, remaining⟩ := List.cons.inj program
      refine ⟨job, ?_, accounts.released, ⟨c.shared, c.frame thread, body job, later,
        accounts.serial, split, ?_, fun _ _ _ beside => beside⟩, fun other different => ?_, ?_⟩
      · rw [split]
        exact List.mem_append_right _ List.mem_cons_self
      · exact (Function.update_self thread rest c.todo).trans
          (remaining.trans (List.append_assoc _ _ _))
      · obtain ⟨others, order, todo⟩ := accounts.order other
        exact ⟨others, order, (Function.update_of_ne different rest c.todo).trans todo⟩
      · rw [List.append_nil]
        exact accounts.hits

variable {thread : Thread} {job : Job} {since : List Hit}

theorem Holds.interrupted (holds : Holds code body shared jobs hits log c thread job since)
    {h : Hit} {next : Shared} (ran : code.hit c.shared h = .ok next) :
    Holds code body shared jobs (hits ++ [h]) log { c with shared := next } thread job
      (since ++ [h]) where
  released := holds.released
  started := by
    obtain ⟨before, frame, stmts, left, serial, split, todo, reached⟩ := holds.started
    refine ⟨before, frame, stmts, left, serial, split, todo, fun later s' l' beside => ?_⟩
    rw [List.append_assoc]
    exact reached _ s' l' (.hit ran beside)
  others := holds.others
  hits := by
    rw [← List.append_assoc]
    exact holds.hits.append (List.Sublist.refl [h])

theorem Holds.works (holds : Holds code body shared jobs hits log c thread job since)
    {stmt : Stmt} {rest : List (Instr Stmt)} (todo : c.todo thread = .stmt stmt :: rest)
    {next : Shared} {frame : Local} {more : List Stmt}
    (acted : code.act stmt c.shared (c.frame thread) = .ok (next, frame, more)) :
    Holds code body shared jobs hits log { c with
      shared := next
      frame := Function.update c.frame thread frame
      todo := Function.update c.todo thread (more.map .stmt ++ rest) } thread job since where
  released := holds.released
  started := by
    obtain ⟨before, first, stmts, left, serial, split, program, reached⟩ := holds.started
    rw [todo] at program
    cases stmts with
    | nil => cases program
    | cons own others =>
        obtain ⟨same, remaining⟩ := List.cons.inj program
        refine ⟨before, first, more ++ others, left, serial, split, ?_, ?_⟩
        · refine (Function.update_self thread _ c.todo).trans ?_
          rw [remaining, List.map_append, List.append_assoc]
          rfl
        · intro later s' l' beside
          rw [Instr.stmt.inj same] at acted
          dsimp only at beside
          rw [Function.update_self] at beside
          exact reached later s' l' (.act acted beside)
  others other different := by
    obtain ⟨left, order, program⟩ := holds.others other different
    exact ⟨left, order, (Function.update_of_ne different _ c.todo).trans program⟩
  hits := holds.hits

theorem Holds.releases (holds : Holds code body shared jobs hits log c thread job since)
    (absorbs : code.Absorbs (body job)) {rest : List (Instr Stmt)}
    (todo : c.todo thread = .unlock :: rest) :
    ∃ log, Accounts code body shared jobs hits log { c with
      owner := none
      todo := Function.update c.todo thread rest
      released := c.released ++ [(thread, c.frame thread)] } := by
  obtain ⟨s, frame, stmts, left, serial, split, program, reached⟩ := holds.started
  rw [todo] at program
  have ended : stmts = [] ∧ rest = WPerf.Library.Lock.program body left := by
    cases stmts with
    | nil => exact ⟨rfl, (List.cons.inj program).2⟩
    | cons stmt others => cases program
  rw [ended.1] at reached
  have whole := reached [] c.shared (c.frame thread) (.done _ _)
  rw [List.append_nil] at whole
  obtain ⟨before, after, first, last, sublist, ranBefore, alone, ranAfter⟩ :=
    absorbs _ _ _ _ _ whole
  obtain ⟨noneBefore, noJobBefore, allBefore⟩ :=
    @log_of_hits Thread Job Local Hit _ before
  obtain ⟨noneAfter, noJobAfter, allAfter⟩ :=
    @log_of_hits Thread Job Local Hit _ after
  refine ⟨log ++ (before.map .hit ++ .job thread job (c.frame thread) :: after.map .hit),
    ?_, ?_, fun other => ?_, ?_⟩
  · exact (serial_append_iff ..).mpr ⟨s, serial, (serial_append_iff ..).mpr
      ⟨first, serial_hits s first before ranBefore, frame, last, alone,
        serial_hits last c.shared after ranAfter⟩⟩
  · have own : Entry.released (.job thread job (c.frame thread) : Entry Thread Job Local Hit) =
        some (thread, c.frame thread) := rfl
    rw [List.filterMap_append, List.filterMap_append, noneBefore, List.nil_append,
      List.filterMap_cons_some own, noneAfter]
    exact congrArg (· ++ _) holds.released
  · rw [List.filterMap_append, List.filterMap_append, noJobBefore, List.nil_append]
    by_cases same : other = thread
    · have own : Entry.jobOf thread (.job thread job (c.frame thread) : Entry Thread Job Local Hit) =
          some job := if_pos rfl
      rw [same]
      refine ⟨left, ?_, (Function.update_self thread rest c.todo).trans ended.2⟩
      rw [List.filterMap_cons_some own, noJobAfter, split, List.append_assoc]
      rfl
    · obtain ⟨remaining, order, others⟩ := holds.others other same
      have foreign : Entry.jobOf other (.job thread job (c.frame thread) : Entry Thread Job Local Hit) =
          none := if_neg (Ne.symm same)
      refine ⟨remaining, ?_, (Function.update_of_ne same _ c.todo).trans others⟩
      rw [List.filterMap_cons_none foreign, noJobAfter, List.append_nil]
      exact order
  · have quiet : Entry.interruption (.job thread job (c.frame thread) : Entry Thread Job Local Hit) =
        none := rfl
    rw [List.filterMap_append, List.filterMap_append, allBefore, List.filterMap_cons_none quiet,
      allAfter]
    exact ((List.Sublist.refl _).append sublist).trans holds.hits

theorem step_orderly (absorbs : ∀ thread, ∀ job ∈ jobs thread, code.Absorbs (body job))
    (orderly : Orderly code body shared jobs hits c) (move : Move Thread Hit)
    {next : Crowd Thread Stmt Shared Local} (ran : step code c move = .ok next) :
    Orderly code body shared jobs (hits ++ move.interruption.toList) next := by
  cases move with
  | hit h =>
      rw [step] at ran
      cases interrupted : code.hit c.shared h with
      | error error =>
          rw [interrupted] at ran
          cases ran
      | ok after =>
          rw [interrupted] at ran
          rw [← Except.ok.inj ran]
          rcases orderly with ⟨free, log, accounts⟩ | ⟨holder, owner, job, member, log, since, holds⟩
          · exact Or.inl ⟨free, _, accounts.interrupted interrupted⟩
          · exact Or.inr ⟨holder, owner, job, member, log, _, holds.interrupted interrupted⟩
  | turn thread =>
      change Orderly code body shared jobs (hits ++ []) next
      rw [List.append_nil]
      rw [step] at ran
      cases todo : c.todo thread with
      | nil =>
          rw [todo] at ran
          cases ran
      | cons instr rest =>
          rw [todo] at ran
          rcases orderly with ⟨free, log, accounts⟩ | ⟨holder, owner, job, member, log, since, holds⟩
          · obtain ⟨left, _, program⟩ := accounts.order thread
            -- a thread outside its jobs can only take the lock
            have locks : instr = .lock := by
              rw [todo] at program
              cases left with
              | nil => cases program
              | cons job later => exact (List.cons.inj program).1
            rw [locks] at ran todo
            dsimp only [execute] at ran
            rw [if_pos free] at ran
            obtain ⟨job, member, holds⟩ := accounts.locks todo
            rw [← Except.ok.inj ran]
            exact Or.inr ⟨thread, rfl, job, member, log, [], holds⟩
          · by_cases same : thread = holder
            · rw [← same] at holds member owner
              cases instr with
              | lock =>
                  obtain ⟨_, _, stmts, left, _, _, program, _⟩ := holds.started
                  rw [todo] at program
                  cases stmts with
                  | nil => cases program
                  | cons stmt others => cases program
              | unlock =>
                  obtain ⟨log, accounts⟩ := holds.releases (absorbs thread job member) todo
                  rw [← Except.ok.inj ran]
                  exact Or.inl ⟨rfl, log, accounts⟩
              | stmt stmt =>
                  dsimp only [execute] at ran
                  cases acted : code.act stmt c.shared (c.frame thread) with
                  | error error =>
                      rw [acted] at ran
                      cases ran
                  | ok result =>
                      obtain ⟨after, frame, more⟩ := result
                      rw [acted] at ran
                      rw [← Except.ok.inj ran]
                      exact Or.inr ⟨thread, owner, job, member, log, since, holds.works todo acted⟩
            · -- the others wait for the lock
              obtain ⟨left, _, program⟩ := holds.others thread same
              rw [todo] at program
              cases left with
              | nil => cases program
              | cons job later =>
                  rw [(List.cons.inj program).1] at ran
                  dsimp only [execute] at ran
                  rw [if_neg (by rw [owner]; exact Option.some_ne_none holder)] at ran
                  cases ran

theorem run_orderly (absorbs : ∀ thread, ∀ job ∈ jobs thread, code.Absorbs (body job))
    (orderly : Orderly code body shared jobs hits c) (moves : List (Move Thread Hit))
    {final : Crowd Thread Stmt Shared Local} (ran : Runs.run (step code) c moves = .ok final) :
    Orderly code body shared jobs (hits ++ moves.filterMap Move.interruption) final := by
  induction moves generalizing c hits with
  | nil =>
      rw [← Except.ok.inj ran, List.filterMap_nil, List.append_nil]
      exact orderly
  | cons move rest ih =>
      obtain ⟨next, first, remaining⟩ := (Runs.run_cons_iff c final move rest).mp ran
      have later := ih (step_orderly absorbs orderly move first) remaining
      rw [List.append_assoc] at later
      cases interruption : move.interruption with
      | none =>
          rw [interruption] at later
          rw [List.filterMap_cons_none interruption]
          exact later
      | some h =>
          rw [interruption] at later
          rw [List.filterMap_cons_some interruption]
          exact later

/-- Whenever the lock is free, the threads have run as if their jobs were
executed whole, one after another. -/
theorem run_serial (absorbs : ∀ thread, ∀ job ∈ jobs thread, code.Absorbs (body job))
    (frame : Thread → Local) (moves : List (Move Thread Hit))
    {final : Crowd Thread Stmt Shared Local}
    (ran : Runs.run (step code) (start body shared frame jobs) moves = .ok final)
    (free : final.owner = none) :
    ∃ log, Accounts code body shared jobs (moves.filterMap Move.interruption) log final := by
  have begins : Accounts code body shared jobs [] ([] : List (Entry Thread Job Local Hit))
      (start body shared frame jobs) :=
    ⟨rfl, rfl, fun thread => ⟨jobs thread, rfl, rfl⟩, List.Sublist.slnil⟩
  rcases run_orderly absorbs (Or.inl ⟨rfl, [], begins⟩) moves ran
    with ⟨_, accounted⟩ | ⟨holder, owner, _⟩
  · exact accounted
  · rw [free] at owner
    cases owner

end Steps

end Crowd

end WPerf.Library.Lock
