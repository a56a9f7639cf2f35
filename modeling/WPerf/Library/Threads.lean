import Mathlib.Logic.Function.Basic
import Mathlib.Tactic.SplitIfs
import WPerf.Library.Runs

/-!
# Two threads

Two threads work on a shared state with a flag and some switches. A thread is
the list of the statements it still has to execute; a schedule says whose turn
it is, and a lock makes the other thread wait. All that the threads see of each
other is in the shared state, so a step is known by what its statement does to
the flag and the switches and by what it leaves to execute.
-/

namespace WPerf.Library.Threads

set_option autoImplicit false

/-- The flag and the switches of a shared state. -/
structure Panel (Shared Switch : Type) [DecidableEq Switch] where
  flag : Shared → Bool
  isOn : Shared → Switch → Bool
  store : Bool → Shared → Shared
  turn : Switch → Bool → Shared → Shared
  flagStored : ∀ value s, flag (store value s) = value
  storeKeeps : ∀ value s, isOn (store value s) = isOn s
  turnKeeps : ∀ switch value s, flag (turn switch value s) = flag s
  turned : ∀ switch value s other,
    isOn (turn switch value s) other = if other = switch then value else isOn s other

inductive Side where
  | left
  | right
deriving DecidableEq, Repr

/-- Why a thread cannot take a step. -/
inductive Stuck (Error : Type) where
  | finished
  | blocked
  | fault (error : Error)
deriving DecidableEq, Repr

section Threads

variable {Shared Switch : Type} [DecidableEq Switch] (panel : Panel Shared Switch)
  (Local Error : Type)

/-- A statement that leaves the flag and the switches alone. It says whether it
is executed again. -/
structure Work where
  step : Shared → Local → Except Error (Shared × Local × Bool)
  quiet : ∀ s l s' l' again, step s l = .ok (s', l', again) →
    panel.flag s' = panel.flag s ∧ panel.isOn s' = panel.isOn s

inductive Basic where
  | turn (switch : Switch) (value : Bool)
  | work (work : Work panel Local Error)

inductive Stmt where
  | lock
  | unlock
  | store (value : Bool)
  | basic (basic : Basic panel Local Error)
  | onFlag (yes no : List (Basic panel Local Error))
  | onData (test : Shared → Local → Bool) (yes no : List (Work panel Local Error))

structure Thread where
  frame : Local
  todo : List (Stmt panel Local Error)

structure System where
  shared : Shared
  owner : Option Side
  threads : Side → Thread panel Local Error

variable {panel Local Error}

def Basic.stmts (basics : List (Basic panel Local Error)) : List (Stmt panel Local Error) :=
  basics.map .basic

def Work.stmts (works : List (Work panel Local Error)) : List (Stmt panel Local Error) :=
  Basic.stmts (works.map .work)

def Work.once (change : Shared → Except Error Shared)
    (quiet : ∀ s s', change s = .ok s' →
      panel.flag s' = panel.flag s ∧ panel.isOn s' = panel.isOn s) : Work panel Local Error where
  step s l := (change s).map fun s' => (s', l, false)
  quiet s l s' l' again ran := by
    obtain ⟨changed, first, same⟩ := (Fallible.map_eq_ok_iff _ _ _).mp ran
    rw [← (Prod.mk.inj same).1]
    exact quiet s changed first

def Work.reads (read : Shared → Local → Except Error (Local × Bool)) :
    Work panel Local Error where
  step s l := (read s l).map fun result => (s, result)
  quiet s l s' l' again ran := by
    obtain ⟨result, _, same⟩ := (Fallible.map_eq_ok_iff _ _ _).mp ran
    rw [← (Prod.mk.inj same).1]
    exact ⟨rfl, rfl⟩

namespace System

variable (s t : System panel Local Error)

def moved (side : Side) (shared : Shared) (owner : Option Side) (frame : Local)
    (todo : List (Stmt panel Local Error)) : System panel Local Error where
  shared := shared
  owner := owner
  threads := Function.update s.threads side ⟨frame, todo⟩

def execute (side : Side) (frame : Local) (rest : List (Stmt panel Local Error)) :
    Stmt panel Local Error → Except (Stuck Error) (System panel Local Error)
  | .lock =>
      if s.owner = none then .ok (s.moved side s.shared (some side) frame rest)
      else .error .blocked
  | .unlock => .ok (s.moved side s.shared none frame rest)
  | .store value => .ok (s.moved side (panel.store value s.shared) s.owner frame rest)
  | .basic (.turn switch value) =>
      .ok (s.moved side (panel.turn switch value s.shared) s.owner frame rest)
  | .basic (.work work) =>
      match work.step s.shared frame with
      | .error error => .error (.fault error)
      | .ok (shared, frame, again) =>
          .ok (s.moved side shared s.owner frame
            (if again then .basic (.work work) :: rest else rest))
  | .onFlag yes no =>
      .ok (s.moved side s.shared s.owner frame
        (Basic.stmts (if panel.flag s.shared then yes else no) ++ rest))
  | .onData test yes no =>
      .ok (s.moved side s.shared s.owner frame
        (Work.stmts (if test s.shared frame then yes else no) ++ rest))

def step (side : Side) : Except (Stuck Error) (System panel Local Error) :=
  match (s.threads side).todo with
  | [] => .error .finished
  | stmt :: rest => s.execute side (s.threads side).frame rest stmt

def Finished : Prop := ∀ side, (s.threads side).todo = []

def todo (side : Side) : List (Stmt panel Local Error) := (s.threads side).todo

def flag : Bool := panel.flag s.shared

def isOn (switch : Switch) : Bool := panel.isOn s.shared switch

end System

end Threads

section Effects

variable {Shared Switch : Type} [DecidableEq Switch] {panel : Panel Shared Switch}
  {Local Error : Type}

namespace System

variable (s t : System panel Local Error)

def Quiet : Prop := t.flag = s.flag ∧ t.isOn = s.isOn

def Effect (side : Side) (rest : List (Stmt panel Local Error)) :
    Stmt panel Local Error → Prop
  | .lock => s.Quiet t ∧ t.todo side = rest
  | .unlock => s.Quiet t ∧ t.todo side = rest
  | .store value => t.flag = value ∧ t.isOn = s.isOn ∧ t.todo side = rest
  | .basic (.turn switch value) =>
      t.flag = s.flag ∧ (∀ other, t.isOn other = if other = switch then value else s.isOn other) ∧
        t.todo side = rest
  | .basic (.work work) =>
      s.Quiet t ∧ (t.todo side = rest ∨ t.todo side = .basic (.work work) :: rest)
  | .onFlag yes no =>
      s.Quiet t ∧ t.todo side = Basic.stmts (if s.flag then yes else no) ++ rest
  | .onData _ _ _ => s.Quiet t ∧ ∃ works, t.todo side = Work.stmts works ++ rest

theorem moved_todo (side : Side) (shared : Shared) (owner : Option Side) (frame : Local)
    (todo : List (Stmt panel Local Error)) :
    (s.moved side shared owner frame todo).todo side = todo :=
  congrArg Thread.todo (Function.update_self side _ s.threads)

theorem moved_todo_other (side other : Side) (different : other ≠ side) (shared : Shared)
    (owner : Option Side) (frame : Local) (todo : List (Stmt panel Local Error)) :
    (s.moved side shared owner frame todo).todo other = s.todo other :=
  congrArg Thread.todo (Function.update_of_ne different _ s.threads)

theorem execute_effect (side : Side) (frame : Local) (rest : List (Stmt panel Local Error))
    (stmt : Stmt panel Local Error) (ran : s.execute side frame rest stmt = .ok t) :
    (∀ other, other ≠ side → t.todo other = s.todo other) ∧ s.Effect t side rest stmt := by
  have others : ∀ shared owner frame todo, s.moved side shared owner frame todo = t →
      ∀ other, other ≠ side → t.todo other = s.todo other := by
    intro shared owner frame todo same other different
    rw [← same]
    exact s.moved_todo_other side other different ..
  cases stmt with
  | lock =>
      rw [execute] at ran
      split_ifs at ran with free
      have same := Except.ok.inj ran
      refine ⟨others _ _ _ _ same, ?_⟩
      rw [← same]
      exact ⟨⟨rfl, rfl⟩, s.moved_todo ..⟩
  | unlock =>
      have same := Except.ok.inj ran
      refine ⟨others _ _ _ _ same, ?_⟩
      rw [← same]
      exact ⟨⟨rfl, rfl⟩, s.moved_todo ..⟩
  | store value =>
      have same := Except.ok.inj ran
      refine ⟨others _ _ _ _ same, ?_⟩
      rw [← same]
      exact ⟨panel.flagStored value s.shared, panel.storeKeeps value s.shared, s.moved_todo ..⟩
  | basic basic =>
      cases basic with
      | turn switch value =>
          have same := Except.ok.inj ran
          refine ⟨others _ _ _ _ same, ?_⟩
          rw [← same]
          exact ⟨panel.turnKeeps switch value s.shared, panel.turned switch value s.shared,
            s.moved_todo ..⟩
      | work work =>
          rw [execute] at ran
          cases worked : work.step s.shared frame with
          | error error =>
              rw [worked] at ran
              cases ran
          | ok result =>
              obtain ⟨shared, frame', again⟩ := result
              rw [worked] at ran
              have same := Except.ok.inj ran
              refine ⟨others _ _ _ _ same, ?_⟩
              rw [← same]
              refine ⟨work.quiet _ _ _ _ _ worked, ?_⟩
              cases again with
              | false => exact Or.inl (s.moved_todo ..)
              | true => exact Or.inr (s.moved_todo ..)
  | onFlag yes no =>
      have same := Except.ok.inj ran
      refine ⟨others _ _ _ _ same, ?_⟩
      rw [← same]
      exact ⟨⟨rfl, rfl⟩, s.moved_todo ..⟩
  | onData test yes no =>
      have same := Except.ok.inj ran
      refine ⟨others _ _ _ _ same, ?_⟩
      rw [← same]
      exact ⟨⟨rfl, rfl⟩, _, s.moved_todo ..⟩

theorem step_effect (side : Side) (ran : s.step side = .ok t) :
    (∀ other, other ≠ side → t.todo other = s.todo other) ∧
      ∃ stmt rest, s.todo side = stmt :: rest ∧ s.Effect t side rest stmt := by
  unfold step at ran
  cases left : (s.threads side).todo with
  | nil =>
      rw [left] at ran
      cases ran
  | cons stmt rest =>
      rw [left] at ran
      obtain ⟨others, effect⟩ := s.execute_effect t side _ rest stmt ran
      exact ⟨others, stmt, rest, left, effect⟩

end System

end Effects

section Alone

variable {Shared Switch : Type} [DecidableEq Switch] {panel : Panel Shared Switch}
  {Local Error : Type}

def System.alone (shared : Shared) (owner : Option Side) (idle frame : Local)
    (todo : List (Stmt panel Local Error)) : System panel Local Error where
  shared := shared
  owner := owner
  threads side :=
    match side with
    | .left => ⟨idle, []⟩
    | .right => ⟨frame, todo⟩

def Becomes (s t : System panel Local Error) : Prop :=
  ∃ count, Runs.run System.step s (List.replicate count .right) = .ok t

theorem Becomes.refl (s : System panel Local Error) : Becomes s s := ⟨0, rfl⟩

theorem Becomes.trans {s t u : System panel Local Error} (first : Becomes s t)
    (second : Becomes t u) : Becomes s u := by
  obtain ⟨before, ran⟩ := first
  obtain ⟨after, ranOn⟩ := second
  refine ⟨before + after, ?_⟩
  rw [List.replicate_add]
  exact (Runs.run_append_iff s u _ _).mpr ⟨t, ran, ranOn⟩

theorem Becomes.head {s t u : System panel Local Error} (first : s.step .right = .ok t)
    (later : Becomes t u) : Becomes s u := by
  obtain ⟨count, ran⟩ := later
  refine ⟨count + 1, ?_⟩
  rw [List.replicate_succ]
  exact (Runs.run_cons_iff s u .right _).mpr ⟨t, first, ran⟩

variable (shared shared' : Shared) (owner : Option Side) (idle frame frame' : Local)
  (rest : List (Stmt panel Local Error))

theorem moved_alone (todo : List (Stmt panel Local Error)) (owner' : Option Side) :
    (System.alone shared owner idle frame rest).moved .right shared' owner' frame' todo =
      System.alone shared' owner' idle frame' todo := by
  unfold System.moved System.alone
  congr 1
  funext side
  cases side with
  | left => rfl
  | right => rfl

theorem alone_step {stmt : Stmt panel Local Error} {owner' : Option Side}
    {todo : List (Stmt panel Local Error)} {u : System panel Local Error}
    (ran : (System.alone shared owner idle frame (stmt :: rest)).execute .right frame rest stmt =
      .ok ((System.alone shared owner idle frame (stmt :: rest)).moved .right shared' owner' frame'
        todo))
    (later : Becomes (.alone shared' owner' idle frame' todo) u) :
    Becomes (.alone shared owner idle frame (stmt :: rest)) u := by
  rw [moved_alone] at ran
  exact Becomes.head ran later

variable {u : System panel Local Error}

theorem alone_lock (later : Becomes (.alone shared (some .right) idle frame rest) u) :
    Becomes (.alone shared none idle frame (.lock :: rest)) u :=
  alone_step shared shared none idle frame frame rest rfl later

theorem alone_unlock (later : Becomes (.alone shared none idle frame rest) u) :
    Becomes (.alone shared owner idle frame (.unlock :: rest)) u :=
  alone_step shared shared owner idle frame frame rest rfl later

theorem alone_store (value : Bool)
    (later : Becomes (.alone (panel.store value shared) owner idle frame rest) u) :
    Becomes (.alone shared owner idle frame (.store value :: rest)) u :=
  alone_step shared _ owner idle frame frame rest rfl later

theorem alone_turn (switch : Switch) (value : Bool)
    (later : Becomes (.alone (panel.turn switch value shared) owner idle frame rest) u) :
    Becomes (.alone shared owner idle frame (.basic (.turn switch value) :: rest)) u :=
  alone_step shared _ owner idle frame frame rest rfl later

theorem alone_on_flag (yes no : List (Basic panel Local Error))
    (later : Becomes (.alone shared owner idle frame
      (Basic.stmts (if panel.flag shared then yes else no) ++ rest)) u) :
    Becomes (.alone shared owner idle frame (.onFlag yes no :: rest)) u :=
  alone_step shared shared owner idle frame frame rest rfl later

theorem alone_on_data (test : Shared → Local → Bool) (yes no : List (Work panel Local Error))
    (later : Becomes (.alone shared owner idle frame
      (Work.stmts (if test shared frame then yes else no) ++ rest)) u) :
    Becomes (.alone shared owner idle frame (.onData test yes no :: rest)) u :=
  alone_step shared shared owner idle frame frame rest rfl later

theorem alone_work (work : Work panel Local Error) (again : Bool)
    (worked : work.step shared frame = .ok (shared', frame', again))
    (later : Becomes (.alone shared' owner idle frame'
      (if again then .basic (.work work) :: rest else rest)) u) :
    Becomes (.alone shared owner idle frame (.basic (.work work) :: rest)) u := by
  refine alone_step shared shared' owner idle frame frame' rest ?_ later
  have found : work.step (System.alone shared owner idle frame
      (.basic (.work work) :: rest)).shared frame = .ok (shared', frame', again) := worked
  rw [System.execute, found]
  rfl

variable {frame} {shared shared' frame'}

/-- What statements do to the shared state and the thread's own data if they are
executed alone and whole. -/
def Executes (stmts : List (Stmt panel Local Error)) (shared : Shared) (frame : Local)
    (shared' : Shared) (frame' : Local) : Prop :=
  ∀ owner idle rest (u : System panel Local Error),
    Becomes (.alone shared' owner idle frame' rest) u →
      Becomes (.alone shared owner idle frame (stmts ++ rest)) u

theorem Executes.nil : Executes ([] : List (Stmt panel Local Error)) shared frame shared frame :=
  fun _ _ _ _ later => later

theorem Executes.append {front back : List (Stmt panel Local Error)} {middle : Shared}
    {between : Local} (first : Executes front shared frame middle between)
    (second : Executes back middle between shared' frame') :
    Executes (front ++ back) shared frame shared' frame' := by
  intro owner idle rest u later
  rw [List.append_assoc]
  exact first owner idle _ u (second owner idle rest u later)

theorem Executes.cons {stmt : Stmt panel Local Error} {rest : List (Stmt panel Local Error)}
    {middle : Shared} {between : Local} (first : Executes [stmt] shared frame middle between)
    (second : Executes rest middle between shared' frame') :
    Executes (stmt :: rest) shared frame shared' frame' :=
  Executes.append first second

theorem executes_turn (switch : Switch) (value : Bool) :
    Executes ([.basic (.turn switch value)] : List (Stmt panel Local Error)) shared frame
      (panel.turn switch value shared) frame :=
  fun owner idle rest _ later => alone_turn shared owner idle frame rest switch value later

theorem executes_on_flag {yes no : List (Basic panel Local Error)}
    (branch : Executes (Basic.stmts (if panel.flag shared then yes else no)) shared frame
      shared' frame') :
    Executes [.onFlag yes no] shared frame shared' frame' :=
  fun owner idle rest u later =>
    alone_on_flag shared owner idle frame rest yes no (branch owner idle rest u later)

theorem executes_on_data {test : Shared → Local → Bool} {yes no : List (Work panel Local Error)}
    (branch : Executes (Work.stmts (if test shared frame then yes else no)) shared frame
      shared' frame') :
    Executes [.onData test yes no] shared frame shared' frame' :=
  fun owner idle rest u later =>
    alone_on_data shared owner idle frame rest test yes no (branch owner idle rest u later)

theorem executes_work {work : Work panel Local Error}
    (worked : work.step shared frame = .ok (shared', frame', false)) :
    Executes [.basic (.work work)] shared frame shared' frame' :=
  fun owner idle rest _ later =>
    alone_work shared shared' owner idle frame frame' rest work false worked later

/-- One more round of a loop. -/
theorem executes_again {work : Work panel Local Error} {after : List (Stmt panel Local Error)}
    {middle : Shared} {between : Local}
    (worked : work.step shared frame = .ok (middle, between, true))
    (later : Executes (.basic (.work work) :: after) middle between shared' frame') :
    Executes (.basic (.work work) :: after) shared frame shared' frame' :=
  fun owner idle rest u last =>
    alone_work shared middle owner idle frame between (after ++ rest) work true worked
      (later owner idle rest u last)

end Alone

end WPerf.Library.Threads
