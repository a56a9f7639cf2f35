import Mathlib.Tactic.Tauto
import WPerf.Library.Threads

/-!
# Switches turned by two threads

What a thread would leave of a switch if it ran on alone is a function of its
statements, and the steps of that thread do not change it. So where one thread
stands when the other one turns a switch decides how the switch ends. A thread
that has tested the flag acts on the value it found, and a switch that is
turned off in between ends on.
-/

namespace WPerf.Library.Threads

set_option autoImplicit false

section Prediction

variable {Shared Switch : Type} [DecidableEq Switch] {panel : Panel Shared Switch}
  {Local Error : Type} (switch : Switch)

def Basic.ends : Basic panel Local Error → Bool → Bool
  | .turn other value, on => if switch = other then value else on
  | .work _, on => on

def Stmt.ends (flag : Bool) : Stmt panel Local Error → Bool → Bool
  | .basic item, on => item.ends switch on
  | .onFlag yes no, on => (if flag then yes else no).foldl (fun on item => item.ends switch on) on
  | .lock, on => on
  | .unlock, on => on
  | .store _, on => on
  | .onData _ _ _, on => on

def ends (flag : Bool) (todo : List (Stmt panel Local Error)) (on : Bool) : Bool :=
  todo.foldl (fun on stmt => stmt.ends switch flag on) on

theorem ends_cons (flag : Bool) (stmt : Stmt panel Local Error)
    (rest : List (Stmt panel Local Error)) (on : Bool) :
    ends switch flag (stmt :: rest) on = ends switch flag rest (stmt.ends switch flag on) := rfl

theorem ends_append (flag : Bool) (front back : List (Stmt panel Local Error)) (on : Bool) :
    ends switch flag (front ++ back) on = ends switch flag back (ends switch flag front on) :=
  List.foldl_append

theorem ends_basics (flag : Bool) (basics : List (Basic panel Local Error)) (on : Bool) :
    ends switch flag (Basic.stmts basics) on =
      basics.foldl (fun on basic => basic.ends switch on) on :=
  List.foldl_map

theorem ends_works (flag : Bool) (works : List (Work panel Local Error)) (on : Bool) :
    ends switch flag (Work.stmts works) on = on := by
  induction works with
  | nil => rfl
  | cons work rest ih => exact ih

/-- Where the flag decides, the switches are turned on if it is set, and left
alone otherwise; and the flag is not stored. -/
def Stmt.Guarded : Stmt panel Local Error → Prop
  | .store _ => False
  | .onFlag yes no =>
      (∀ switch, .turn switch false ∉ yes) ∧ ∀ switch value, .turn switch value ∉ no
  | .lock => True
  | .unlock => True
  | .basic _ => True
  | .onData _ _ _ => True

def Guarded (todo : List (Stmt panel Local Error)) : Prop := ∀ stmt ∈ todo, stmt.Guarded

theorem guarded_basics (basics : List (Basic panel Local Error)) :
    Guarded (Basic.stmts basics) := by
  intro stmt member
  obtain ⟨basic, _, same⟩ := List.mem_map.mp member
  rw [← same]
  trivial

theorem guarded_append {front back : List (Stmt panel Local Error)} (first : Guarded front)
    (second : Guarded back) : Guarded (front ++ back) := by
  intro stmt member
  rcases List.mem_append.mp member with inFront | inBack
  · exact first stmt inFront
  · exact second stmt inBack

theorem basics_end_on (basics : List (Basic panel Local Error))
    (noOff : .turn switch false ∉ basics) :
    basics.foldl (fun on basic => basic.ends switch on) true = true := by
  induction basics with
  | nil => rfl
  | cons basic rest ih =>
      rw [List.mem_cons, not_or] at noOff
      have kept : basic.ends switch true = true := by
        cases basic with
        | turn other value =>
            rw [Basic.ends]
            split_ifs with same
            · cases value with
              | true => rfl
              | false => exact absurd (by rw [same]) noOff.1
            · rfl
        | work work => rfl
      rw [List.foldl_cons, kept]
      exact ih noOff.2

theorem basics_keep (basics : List (Basic panel Local Error))
    (free : ∀ value, .turn switch value ∉ basics) (on : Bool) :
    basics.foldl (fun on basic => basic.ends switch on) on = on := by
  induction basics with
  | nil => rfl
  | cons basic rest ih =>
      have kept : basic.ends switch on = on := by
        cases basic with
        | turn other value =>
            have different : ¬switch = other := by
              intro same
              exact free value (by rw [same]; exact List.mem_cons_self)
            exact if_neg different
        | work work => rfl
      rw [List.foldl_cons, kept]
      exact ih fun value member => free value (List.mem_cons_of_mem basic member)

theorem foldl_monotone {Item : Type} (change : Bool → Item → Bool)
    (each : ∀ item on, change on item = true → change true item = true) (items : List Item)
    (on : Bool) (atEnd : items.foldl change on = true) : items.foldl change true = true := by
  induction items generalizing on with
  | nil => rfl
  | cons item rest ih =>
      rw [List.foldl_cons] at atEnd ⊢
      cases reached : change true item with
      | true => exact ih _ atEnd
      | false =>
          have below : change on item = false := by
            by_contra above
            have up := each item on (Bool.eq_true_of_not_eq_false above)
            rw [reached] at up
            cases up
          rwa [below] at atEnd

theorem Basic.ends_monotone (basic : Basic panel Local Error) (on : Bool)
    (atEnd : basic.ends switch on = true) : basic.ends switch true = true := by
  cases basic with
  | turn other value =>
      rw [Basic.ends] at atEnd ⊢
      split_ifs at atEnd ⊢
      · exact atEnd
      · rfl
  | work work => rfl

theorem ends_monotone (flag : Bool) (todo : List (Stmt panel Local Error)) (on : Bool)
    (atEnd : ends switch flag todo on = true) : ends switch flag todo true = true := by
  refine foldl_monotone _ ?_ todo on atEnd
  intro stmt on up
  cases stmt with
  | basic basic => exact basic.ends_monotone switch on up
  | onFlag yes no =>
      exact foldl_monotone _ (fun basic on => basic.ends_monotone switch on) _ on up
  | lock => rfl
  | unlock => rfl
  | store value => rfl
  | onData test yes no => rfl

/-- With the flag set, the rest of the thread leaves the switch on. -/
def Settles (todo : List (Stmt panel Local Error)) : Prop := ends switch true todo true = true

end Prediction

section Steps

variable {Shared Switch : Type} [DecidableEq Switch] {panel : Panel Shared Switch}
  {Local Error : Type} (s t : System panel Local Error)

/-- A step of a guarded thread puts statements in the place of the one it
executes. To every switch they do what that one had still to do. -/
structure Replaces (stmt : Stmt panel Local Error) (front : List (Stmt panel Local Error)) :
    Prop where
  guarded : Guarded front
  settles : ∀ switch, Settles switch front
  flag : t.flag = s.flag
  ends : ∀ switch,
    ends switch s.flag front (t.isOn switch) = stmt.ends switch s.flag (s.isOn switch)

variable {s t}

theorem quiet_replaces (stmt : Stmt panel Local Error) (quiet : s.Quiet t)
    (keeps : ∀ switch on, stmt.ends switch s.flag on = on) : Replaces s t stmt [] where
  guarded := fun _ member => absurd member List.not_mem_nil
  settles := fun _ => rfl
  flag := quiet.1
  ends := fun switch => (congrFun quiet.2 switch).trans (keeps switch _).symm

theorem step_replaces {side : Side} (ran : s.step side = .ok t)
    (guarded : Guarded (s.todo side)) :
    ∃ stmt rest front, s.todo side = stmt :: rest ∧ t.todo side = front ++ rest ∧
      Replaces s t stmt front := by
  obtain ⟨_, stmt, rest, left, effect⟩ := s.step_effect t side ran
  have own : stmt.Guarded := guarded stmt (by rw [left]; exact List.mem_cons_self)
  cases stmt with
  | lock => exact ⟨_, rest, [], left, effect.2, quiet_replaces _ effect.1 fun _ _ => rfl⟩
  | unlock => exact ⟨_, rest, [], left, effect.2, quiet_replaces _ effect.1 fun _ _ => rfl⟩
  | store value => exact own.elim
  | basic basic =>
      cases basic with
      | turn other value =>
          obtain ⟨flag, on, todo⟩ := effect
          exact ⟨_, rest, [], left, todo, {
            guarded := fun _ member => absurd member List.not_mem_nil
            settles := fun _ => rfl
            flag := flag
            ends := on }⟩
      | work work =>
          obtain ⟨quiet, todo⟩ := effect
          rcases todo with past | again
          · exact ⟨_, rest, [], left, past, quiet_replaces _ quiet fun _ _ => rfl⟩
          · exact ⟨_, rest, [.basic (.work work)], left, again, {
              guarded := guarded_basics [.work work]
              settles := fun _ => rfl
              flag := quiet.1
              ends := congrFun quiet.2 }⟩
  | onFlag yes no =>
      obtain ⟨quiet, todo⟩ := effect
      refine ⟨_, rest, _, left, todo, ⟨guarded_basics _, ?_, quiet.1, ?_⟩⟩
      · intro switch
        unfold Settles
        rw [ends_basics]
        cases s.flag with
        | true => exact basics_end_on switch yes (own.1 switch)
        | false => exact basics_keep switch no (own.2 switch) true
      · intro switch
        rw [ends_basics, quiet.2]
        rfl
  | onData test yes no =>
      obtain ⟨quiet, works, todo⟩ := effect
      refine ⟨_, rest, _, left, todo, ⟨guarded_basics _, ?_, quiet.1, ?_⟩⟩
      · exact fun switch => ends_works switch true works true
      · intro switch
        rw [ends_works, quiet.2]
        rfl

theorem step_keeps_ends {side : Side} (switch : Switch) (ran : s.step side = .ok t)
    (guarded : Guarded (s.todo side)) :
    t.flag = s.flag ∧
      ends switch s.flag (t.todo side) (t.isOn switch) =
        ends switch s.flag (s.todo side) (s.isOn switch) := by
  obtain ⟨stmt, rest, front, before, after, replaces⟩ := step_replaces ran guarded
  refine ⟨replaces.flag, ?_⟩
  rw [before, after, ends_append, replaces.ends, ends_cons]

theorem step_guarded {side : Side} (ran : s.step side = .ok t)
    (guarded : Guarded (s.todo side)) : Guarded (t.todo side) := by
  obtain ⟨stmt, rest, front, before, after, replaces⟩ := step_replaces ran guarded
  rw [after]
  refine guarded_append replaces.guarded fun other member => guarded other ?_
  rw [before]
  exact List.mem_cons_of_mem stmt member

theorem step_settles {side : Side} (switch : Switch) (ran : s.step side = .ok t)
    (guarded : Guarded (s.todo side)) (settles : Settles switch (s.todo side)) :
    Settles switch (t.todo side) := by
  obtain ⟨stmt, rest, front, before, after, replaces⟩ := step_replaces ran guarded
  unfold Settles at settles ⊢
  rw [before, ends_cons] at settles
  rw [after, ends_append, replaces.settles switch]
  exact ends_monotone switch true rest _ settles

theorem basics_step {side : Side} {basic : Basic panel Local Error}
    {more : List (Basic panel Local Error)} (ran : s.step side = .ok t)
    (left : s.todo side = Basic.stmts (basic :: more)) :
    t.flag = s.flag ∧ (∀ switch, t.isOn switch = basic.ends switch (s.isOn switch)) ∧
      (t.todo side = Basic.stmts more ∨
        (∃ work, basic = .work work) ∧ t.todo side = Basic.stmts (basic :: more)) := by
  obtain ⟨_, stmt, rest, mine, effect⟩ := s.step_effect t side ran
  rw [left] at mine
  obtain ⟨head, tail⟩ := List.cons.inj mine
  rw [← head, ← tail] at effect
  cases basic with
  | turn other value =>
      obtain ⟨flag, on, todo⟩ := effect
      exact ⟨flag, on, Or.inl todo⟩
  | work work =>
      obtain ⟨quiet, todo⟩ := effect
      exact ⟨quiet.1, congrFun quiet.2, todo.imp_right fun again => ⟨⟨work, rfl⟩, again⟩⟩

end Steps

section Stale

variable {Shared Switch : Type} [DecidableEq Switch] {panel : Panel Shared Switch}
  {Local Error : Type} (switch : Switch)

/-- The thread has found the flag set and will turn the switch on, and it does
not turn it off again. -/
def Stale (todo : List (Stmt panel Local Error)) : Prop :=
  ∃ front back, todo = front ++ .basic (.turn switch true) :: back ∧
    .basic (.turn switch false) ∉ back

theorem stale_cons (stmt : Stmt panel Local Error) (rest : List (Stmt panel Local Error)) :
    Stale switch (stmt :: rest) ↔
      (stmt = .basic (.turn switch true) ∧ .basic (.turn switch false) ∉ rest) ∨
        Stale switch rest := by
  constructor
  · intro ⟨front, back, split, noOff⟩
    cases front with
    | nil =>
        obtain ⟨first, same⟩ := List.cons.inj split
        rw [← same] at noOff
        exact Or.inl ⟨first, noOff⟩
    | cons head front => exact Or.inr ⟨front, back, (List.cons.inj split).2, noOff⟩
  · intro stale
    rcases stale with ⟨first, noOff⟩ | ⟨front, back, split, noOff⟩
    · exact ⟨[], rest, by rw [first]; rfl, noOff⟩
    · exact ⟨stmt :: front, back, by rw [split]; rfl, noOff⟩

/-- With the flag down only a stale test turns a switch on. -/
theorem ends_on_iff (todo : List (Stmt panel Local Error)) (guarded : Guarded todo) (on : Bool) :
    ends switch false todo on = true ↔
      Stale switch todo ∨ on = true ∧ .basic (.turn switch false) ∉ todo := by
  induction todo generalizing on with
  | nil =>
      have never : ¬Stale switch ([] : List (Stmt panel Local Error)) := by
        intro ⟨front, back, split, _⟩
        cases front <;> cases split
      simp [never, ends]
  | cons stmt rest ih =>
      have tail : Guarded rest := fun other member => guarded other (List.mem_cons_of_mem stmt member)
      have other : ∀ stmt : Stmt panel Local Error, (∀ value, stmt ≠ .basic (.turn switch value)) →
          stmt.ends switch false on = on →
          (ends switch false rest (stmt.ends switch false on) = true ↔
            Stale switch (stmt :: rest) ∨
              on = true ∧ .basic (.turn switch false) ∉ stmt :: rest) := by
        intro stmt different keeps
        rw [keeps, ih tail on, stale_cons, List.mem_cons, not_or]
        simp [different true, (different false).symm]
      rw [ends_cons]
      cases stmt with
      | basic basic =>
          cases basic with
          | turn turned value =>
              by_cases same : switch = turned
              · rw [← same, stale_cons, ih tail]
                have settled : (Stmt.basic (.turn switch value)
                    : Stmt panel Local Error).ends switch false on = value := if_pos rfl
                rw [settled]
                cases value with
                | true =>
                    simp only [List.mem_cons, not_or, true_and]
                    tauto
                | false => simp
              · refine other _ ?_ (if_neg same)
                intro value' equal
                injection equal with equal
                injection equal with equal
                exact same equal.symm
          | work work =>
              refine other _ ?_ rfl
              intro value equal
              injection equal with equal
              cases equal
      | onFlag yes no =>
          obtain ⟨_, noKeeps⟩ := guarded _ List.mem_cons_self
          exact other _ (fun value equal => by cases equal) (basics_keep switch no (noKeeps _) on)
      | lock => exact other _ (fun value equal => by cases equal) rfl
      | unlock => exact other _ (fun value equal => by cases equal) rfl
      | store value => exact other _ (fun value equal => by cases equal) rfl
      | onData test yes no => exact other _ (fun value equal => by cases equal) rfl

/-- The left thread turns the switch off while the right one is about to act on
a stale test. -/
def Disturbs (pair : System panel Local Error × Side) : Prop :=
  pair.2 = .left ∧ (∃ rest, pair.1.todo .left = .basic (.turn switch false) :: rest) ∧
    Stale switch (pair.1.todo .right)

theorem free_calm {s : System panel Local Error} {basics : List (Basic panel Local Error)}
    (left : s.todo .left = Basic.stmts basics) (free : ∀ value, .turn switch value ∉ basics) :
    ¬Disturbs switch (s, Side.left) := by
  intro ⟨_, ⟨rest, turns⟩, _⟩
  rw [left] at turns
  cases basics with
  | nil => cases turns
  | cons basic more =>
      injection turns with turns _
      injection turns with turns
      exact free false (by rw [turns]; exact List.mem_cons_self)

/-- Once the left thread is done with a switch, the right one decides. -/
theorem ends_as_predicted (schedule : List Side) (s final : System panel Local Error)
    (ran : Runs.run System.step s schedule = .ok final) (guarded : Guarded (s.todo .right))
    (basics : List (Basic panel Local Error)) (left : s.todo .left = Basic.stmts basics)
    (free : ∀ value, .turn switch value ∉ basics) (finished : final.todo .right = []) :
    final.flag = s.flag ∧ final.isOn switch = ends switch s.flag (s.todo .right) (s.isOn switch) ∧
      ∀ pair ∈ Runs.steps System.step s schedule, ¬Disturbs switch pair := by
  induction schedule generalizing s basics with
  | nil =>
      have same : s = final := Except.ok.inj ran
      rw [same, finished]
      exact ⟨rfl, rfl, fun pair member => absurd member List.not_mem_nil⟩
  | cons side rest ih =>
      obtain ⟨next, first, remaining⟩ := (Runs.run_cons_iff s final side rest).mp ran
      obtain ⟨others, stmt, stmts, mine, _⟩ := s.step_effect next side first
      rw [Runs.steps_cons s next side rest first, List.forall_mem_cons]
      cases side with
      | right =>
          have same := (others .left (by decide)).trans left
          obtain ⟨flag, kept⟩ := step_keeps_ends switch first guarded
          obtain ⟨flagAtEnd, onAtEnd, calm⟩ :=
            ih next remaining (step_guarded first guarded) basics same free
          rw [flag] at flagAtEnd onAtEnd
          refine ⟨flagAtEnd, onAtEnd.trans kept, ?_, calm⟩
          intro ⟨isLeft, _⟩
          cases isLeft
      | left =>
          have same : next.todo .right = s.todo .right := others .right (by decide)
          cases basics with
          | nil =>
              rw [left] at mine
              cases mine
          | cons basic more =>
              obtain ⟨flag, on, todo⟩ := basics_step first left
              have kept : next.isOn switch = s.isOn switch := by
                rw [on]
                exact basics_keep switch [basic] (fun value member => free value
                  (by rw [List.mem_singleton.mp member]; exact List.mem_cons_self)) _
              have stays : ∃ basics, next.todo .left = Basic.stmts basics ∧
                  ∀ value, .turn switch value ∉ basics := by
                rcases todo with past | ⟨_, again⟩
                · exact ⟨more, past, fun value member =>
                    free value (List.mem_cons_of_mem basic member)⟩
                · exact ⟨basic :: more, again, free⟩
              obtain ⟨basics, leftNext, freeNext⟩ := stays
              rw [← same] at guarded
              obtain ⟨flagAtEnd, onAtEnd, calm⟩ := ih next remaining guarded basics leftNext freeNext
              rw [flag, kept, same] at onAtEnd
              exact ⟨flagAtEnd.trans flag, onAtEnd, free_calm switch left free, calm⟩

def TurnsOnce (value : Bool) (basics : List (Basic panel Local Error)) : Prop :=
  ∃ front back, basics = front ++ .turn switch value :: back ∧
    (∀ other, .turn switch other ∉ front) ∧ ∀ other, .turn switch other ∉ back

inductive Ahead (value : Bool) : Bool → List (Stmt panel Local Error) → Prop where
  | calling (flag : Bool) (yes no : List (Basic panel Local Error))
      (turns : TurnsOnce switch value (if value then yes else no)) :
      Ahead value flag [.lock, .unlock, .store value, .onFlag yes no]
  | holding (flag : Bool) (yes no : List (Basic panel Local Error))
      (turns : TurnsOnce switch value (if value then yes else no)) :
      Ahead value flag [.unlock, .store value, .onFlag yes no]
  | storing (flag : Bool) (yes no : List (Basic panel Local Error))
      (turns : TurnsOnce switch value (if value then yes else no)) :
      Ahead value flag [.store value, .onFlag yes no]
  | testing (yes no : List (Basic panel Local Error))
      (turns : TurnsOnce switch value (if value then yes else no)) :
      Ahead value value [.onFlag yes no]
  | turning (basics : List (Basic panel Local Error)) (turns : TurnsOnce switch value basics) :
      Ahead value value (Basic.stmts basics)

theorem turning_step (value : Bool) (s t : System panel Local Error)
    (ran : s.step .left = .ok t) (basics : List (Basic panel Local Error))
    (left : s.todo .left = Basic.stmts basics) (turns : TurnsOnce switch value basics) :
    t.flag = s.flag ∧
      ((∃ closer, t.todo .left = Basic.stmts closer ∧ TurnsOnce switch value closer) ∧
          (¬∃ rest, s.todo .left = .basic (.turn switch false) :: rest) ∨
        (∃ rest, s.todo .left = .basic (.turn switch value) :: rest) ∧ t.isOn switch = value ∧
          ∃ basics, t.todo .left = Basic.stmts basics ∧
            ∀ other, .turn switch other ∉ basics) := by
  obtain ⟨front, back, split, freeFront, freeBack⟩ := turns
  rw [split] at left
  cases front with
  | nil =>
      obtain ⟨flag, on, todo⟩ := basics_step ran left
      have past : t.todo .left = Basic.stmts back := by
        rcases todo with past | ⟨⟨work, same⟩, _⟩
        · exact past
        · cases same
      exact ⟨flag, Or.inr ⟨⟨_, left⟩, (on switch).trans (if_pos rfl), back, past, freeBack⟩⟩
  | cons basic front =>
      obtain ⟨flag, _, todo⟩ := basics_step ran left
      have notTurned : ¬∃ rest, s.todo .left = .basic (.turn switch false) :: rest := by
        intro ⟨rest, turned⟩
        have equal := left.symm.trans turned
        injection equal with equal _
        injection equal with equal
        exact freeFront false (by rw [equal]; exact List.mem_cons_self)
      refine ⟨flag, Or.inl ⟨?_, notTurned⟩⟩
      rcases todo with past | ⟨_, again⟩
      · exact ⟨_, past, front, back, rfl,
          fun other member => freeFront other (List.mem_cons_of_mem basic member), freeBack⟩
      · exact ⟨_, again, basic :: front, back, rfl, freeFront, freeBack⟩

theorem ahead_step (value : Bool) (s t : System panel Local Error)
    (ran : s.step .left = .ok t) (ahead : Ahead switch value s.flag (s.todo .left)) :
    (Ahead switch value t.flag (t.todo .left) ∧
        ¬∃ rest, s.todo .left = .basic (.turn switch false) :: rest) ∨
      (∃ rest, s.todo .left = .basic (.turn switch value) :: rest) ∧
        t.flag = value ∧ t.isOn switch = value ∧
        ∃ basics, t.todo .left = Basic.stmts basics ∧ ∀ other, .turn switch other ∉ basics := by
  obtain ⟨_, stmt, rest, mine, effect⟩ := s.step_effect t .left ran
  generalize known : s.flag = flag at ahead
  generalize whole : s.todo .left = todo at ahead
  cases ahead with
  | calling flag yes no turns =>
      obtain ⟨rfl, rfl⟩ := List.cons.inj (mine.symm.trans whole)
      rw [effect.2]
      exact Or.inl ⟨.holding _ yes no turns, fun ⟨_, equal⟩ => by cases equal⟩
  | holding flag yes no turns =>
      obtain ⟨rfl, rfl⟩ := List.cons.inj (mine.symm.trans whole)
      rw [effect.2]
      exact Or.inl ⟨.storing _ yes no turns, fun ⟨_, equal⟩ => by cases equal⟩
  | storing flag yes no turns =>
      obtain ⟨rfl, rfl⟩ := List.cons.inj (mine.symm.trans whole)
      obtain ⟨stored, _, todo⟩ := effect
      rw [todo, stored]
      exact Or.inl ⟨.testing yes no turns, fun ⟨_, equal⟩ => by cases equal⟩
  | testing yes no turns =>
      obtain ⟨rfl, rfl⟩ := List.cons.inj (mine.symm.trans whole)
      obtain ⟨⟨flag, _⟩, todo⟩ := effect
      rw [todo, flag, known, List.append_nil]
      exact Or.inl ⟨.turning _ turns, fun ⟨_, equal⟩ => by cases equal⟩
  | turning basics turns =>
      obtain ⟨flag, moved⟩ := turning_step switch value s t ran basics whole turns
      rw [whole] at moved
      rcases moved with ⟨⟨closer, todo, turns⟩, notTurned⟩ | ⟨turned, on, done⟩
      · refine Or.inl ⟨?_, notTurned⟩
        rw [todo, flag, known]
        exact .turning closer turns
      · exact Or.inr ⟨turned, flag.trans known, on, done⟩

end Stale

section Outcome

variable {Shared Switch : Type} [DecidableEq Switch] {panel : Panel Shared Switch}
  {Local Error : Type}

theorem ahead_nonempty (switch : Switch) (value flag : Bool)
    (todo : List (Stmt panel Local Error)) (ahead : Ahead switch value flag todo) : todo ≠ [] := by
  cases ahead with
  | calling yes no turns => simp
  | holding yes no turns => simp
  | storing yes no turns => simp
  | testing yes no turns => simp
  | turning basics turns =>
      obtain ⟨front, back, split, _⟩ := turns
      rw [split]
      simp [Basic.stmts]

/-- One switch ends as the flag is stored exactly if the left thread does not
turn it off over a stale test. -/
theorem switch_ends_iff (switch : Switch) (value : Bool) (schedule : List Side)
    (s final : System panel Local Error) (ran : Runs.run System.step s schedule = .ok final)
    (finished : final.Finished) (guarded : Guarded (s.todo .right))
    (settles : Settles switch (s.todo .right)) (ahead : Ahead switch value s.flag (s.todo .left)) :
    final.flag = value ∧
      (final.isOn switch = value ↔
        ∀ pair ∈ Runs.steps System.step s schedule, ¬Disturbs switch pair) := by
  induction schedule generalizing s with
  | nil =>
      have same : s = final := Except.ok.inj ran
      rw [same] at ahead
      exact absurd (finished .left) (ahead_nonempty switch value _ _ ahead)
  | cons side rest ih =>
      obtain ⟨next, first, remaining⟩ := (Runs.run_cons_iff s final side rest).mp ran
      obtain ⟨others, _⟩ := s.step_effect next side first
      rw [Runs.steps_cons s next side rest first, List.forall_mem_cons]
      cases side with
      | right =>
          have same : next.todo .left = s.todo .left := others .left (by decide)
          obtain ⟨flag, _⟩ := step_keeps_ends switch first guarded
          have calm : ¬Disturbs switch (s, Side.right) := fun disturbs => by cases disturbs.1
          obtain ⟨stored, ends⟩ := ih next remaining (step_guarded first guarded)
            (step_settles switch first guarded settles)
            (by rw [same, flag]; exact ahead)
          exact ⟨stored, ends.trans (and_iff_right calm).symm⟩
      | left =>
          have same : next.todo .right = s.todo .right := others .right (by decide)
          rcases ahead_step switch value s next first ahead with
            ⟨stillAhead, notTurned⟩ | ⟨⟨stmts, turns⟩, flagNext, on, basics, todo, free⟩
          · have calm : ¬Disturbs switch (s, Side.left) := fun disturbs => notTurned disturbs.2.1
            obtain ⟨stored, ends⟩ := ih next remaining (by rw [same]; exact guarded)
              (by rw [same]; exact settles) stillAhead
            exact ⟨stored, ends.trans (and_iff_right calm).symm⟩
          · -- here the switch is turned, and the right thread decides what becomes of it
            obtain ⟨stored, predicted, calm⟩ := ends_as_predicted switch rest next final remaining
              (by rw [same]; exact guarded) basics todo free (finished .right)
            rw [flagNext, on, same] at predicted
            refine ⟨stored.trans flagNext, ?_⟩
            rw [predicted]
            cases value with
            | true =>
                have noDisturb : ¬Disturbs switch (s, Side.left) := by
                  intro ⟨_, ⟨_, off⟩, _⟩
                  have equal := turns.symm.trans off
                  injection equal with equal _
                  injection equal with equal
                  cases equal
                exact iff_of_true settles ⟨noDisturb, calm⟩
            | false =>
                have staleIff := ends_on_iff switch (s.todo .right) guarded false
                have disturbsIff : Disturbs switch (s, Side.left) ↔
                    Stale switch (s.todo .right) :=
                  ⟨fun disturbs => disturbs.2.2, fun stale => ⟨rfl, ⟨stmts, turns⟩, stale⟩⟩
                rw [disturbsIff, ← Bool.not_eq_true, staleIff,
                  or_iff_left fun already => by cases already.1]
                exact (and_iff_left calm).symm

variable (switches : List Switch)

def turnAll (value : Bool) : List (Basic panel Local Error) :=
  switches.map fun switch => .turn switch value

def storing (value : Bool) (reset : List (Work panel Local Error)) :
    List (Stmt panel Local Error) :=
  [.lock, .unlock, .store value,
    .onFlag (turnAll switches true) (turnAll switches false ++ reset.map .work)]

structure Session (panel : Panel Shared Switch) (Local Error : Type) where
  opening : List (Work panel Local Error)
  body : List (Stmt panel Local Error)
  plain : ∀ stmt ∈ body,
    (∃ work, stmt = .basic (.work work)) ∨ ∃ test yes no, stmt = .onData test yes no

theorem plain_works (works : List (Work panel Local Error)) :
    ∀ stmt ∈ Work.stmts works,
      (∃ work, stmt = .basic (.work work)) ∨ ∃ test yes no, stmt = .onData test yes no := by
  intro stmt member
  obtain ⟨basic, inBasics, same⟩ := List.mem_map.mp member
  obtain ⟨work, _, made⟩ := List.mem_map.mp inBasics
  exact Or.inl ⟨work, by rw [← same, ← made]⟩

/-- Turns all switches off, works, and turns them on again if the flag is set,
all under the lock. -/
def Session.stmts (session : Session panel Local Error) : List (Stmt panel Local Error) :=
  .lock :: (Work.stmts session.opening ++ (Basic.stmts (turnAll switches false) ++
    (session.body ++ [.onFlag (turnAll switches true) [], .unlock])))

def sessionStmts (sessions : List (Session panel Local Error)) : List (Stmt panel Local Error) :=
  sessions.flatMap (Session.stmts switches)

theorem turn_all_once (switch : Switch) (value : Bool) (reset : List (Work panel Local Error))
    (distinct : switches.Nodup) (member : switch ∈ switches) :
    TurnsOnce switch value (turnAll switches value ++ reset.map .work) := by
  obtain ⟨front, back, split⟩ := List.append_of_mem member
  rw [split] at distinct
  obtain ⟨_, tail, apart⟩ := List.nodup_append.mp distinct
  have free : ∀ (others : List Switch), switch ∉ others → ∀ other,
      .turn switch other ∉ (turnAll others value : List (Basic panel Local Error)) := by
    intro others missing other turns
    obtain ⟨turned, listed, same⟩ := List.mem_map.mp turns
    injection same with same
    rw [same] at listed
    exact missing listed
  refine ⟨turnAll front value, turnAll back value ++ reset.map .work, ?_, ?_, ?_⟩
  · rw [split]
    simp [turnAll]
  · exact free front fun inFront => apart switch inFront switch List.mem_cons_self rfl
  · intro other turns
    rcases List.mem_append.mp turns with inBack | inReset
    · exact free back (List.nodup_cons.mp tail).1 other inBack
    · obtain ⟨work, _, same⟩ := List.mem_map.mp inReset
      cases same

theorem session_guarded (session : Session panel Local Error) :
    Guarded (session.stmts switches) := by
  have body : Guarded session.body := by
    intro stmt member
    rcases session.plain stmt member with ⟨work, same⟩ | ⟨test, yes, no, same⟩
    · rw [same]
      trivial
    · rw [same]
      trivial
  have closing : Guarded ([.onFlag (turnAll switches true) [], .unlock]
      : List (Stmt panel Local Error)) := by
    intro stmt member
    rcases List.mem_cons.mp member with first | second
    · rw [first]
      refine ⟨?_, fun switch value => List.not_mem_nil⟩
      intro switch turns
      obtain ⟨turned, _, same⟩ := List.mem_map.mp turns
      cases same
    · rw [List.mem_singleton.mp second]
      trivial
  have rest := guarded_append (guarded_basics (session.opening.map .work))
    (guarded_append (guarded_basics (turnAll switches false)) (guarded_append body closing))
  intro stmt member
  rcases List.mem_cons.mp member with first | later
  · rw [first]
    trivial
  · exact rest stmt later

theorem session_settles (session : Session panel Local Error) (switch : Switch)
    (member : switch ∈ switches) (on : Bool) :
    ends switch true (session.stmts switches) on = true := by
  have turnedOn : ∀ (others : List Switch) (on : Bool), switch ∈ others ∨ on = true →
      (turnAll others true : List (Basic panel Local Error)).foldl
        (fun on basic => basic.ends switch on) on = true := by
    intro others
    induction others with
    | nil => exact fun on already => already.resolve_left List.not_mem_nil
    | cons other others ih =>
        intro on listed
        change (turnAll others true : List (Basic panel Local Error)).foldl _
          ((Basic.turn other true : Basic panel Local Error).ends switch on) = true
        apply ih
        rw [Basic.ends]
        split_ifs with same
        · exact Or.inr rfl
        · refine listed.imp_left fun inCons => ?_
          exact (List.mem_cons.mp inCons).resolve_left same
  unfold Session.stmts
  rw [ends_cons, ends_append, ends_append, ends_append, ends_cons, ends_cons]
  exact turnedOn switches _ (Or.inl member)

theorem sessions_guarded (sessions : List (Session panel Local Error)) :
    Guarded (sessionStmts switches sessions) := by
  intro stmt member
  obtain ⟨session, _, inSession⟩ := List.mem_flatMap.mp member
  exact session_guarded switches session stmt inSession

theorem sessions_settle (sessions : List (Session panel Local Error)) (switch : Switch)
    (member : switch ∈ switches) : Settles switch (sessionStmts switches sessions) := by
  unfold Settles sessionStmts
  induction sessions with
  | nil => rfl
  | cons session rest ih =>
      rw [List.flatMap_cons, ends_append, session_settles switches session switch member]
      exact ih

def System.start (shared : Shared) (frames : Side → Local) (value : Bool)
    (reset : List (Work panel Local Error)) (sessions : List (Session panel Local Error)) :
    System panel Local Error where
  shared := shared
  owner := none
  threads side :=
    match side with
    | .left => ⟨frames .left, storing switches value reset⟩
    | .right => ⟨frames .right, sessionStmts switches sessions⟩

/-- All switches end as the flag says exactly if no switch is turned off over a
stale test. -/
theorem end_as_stored_iff [Nonempty Switch] (distinct : switches.Nodup) (all : ∀ switch, switch ∈ switches)
    (shared : Shared) (frames : Side → Local) (value : Bool)
    (reset : List (Work panel Local Error)) (sessions : List (Session panel Local Error))
    (schedule : List Side) (final : System panel Local Error)
    (ran : Runs.run System.step (.start switches shared frames value reset sessions) schedule =
      .ok final) (finished : final.Finished) :
    final.flag = value ∧
      ((∀ switch, final.isOn switch = final.flag) ↔
        ∀ pair ∈ Runs.steps System.step (.start switches shared frames value reset sessions)
          schedule, ∀ switch, ¬Disturbs switch pair) := by
  have each : ∀ switch, final.flag = value ∧ (final.isOn switch = value ↔
      ∀ pair ∈ Runs.steps System.step (.start switches shared frames value reset sessions)
        schedule, ¬Disturbs switch pair) := by
    intro switch
    apply switch_ends_iff switch value schedule _ final ran finished
      (sessions_guarded switches sessions) (sessions_settle switches sessions switch (all switch))
    apply Ahead.calling
    cases value with
    | true =>
        have turns := turn_all_once switches switch true ([] : List (Work panel Local Error))
          distinct (all switch)
        rwa [List.map_nil, List.append_nil] at turns
    | false => exact turn_all_once switches switch false reset distinct (all switch)
  have stored := (each (Classical.arbitrary Switch)).1
  refine ⟨stored, ?_⟩
  rw [stored]
  constructor
  · intro asStored pair member switch
    exact (each switch).2.mp (asStored switch) pair member
  · intro calm switch
    exact (each switch).2.mpr fun pair member => calm pair member switch

end Outcome

section Alone

variable {Shared Switch : Type} [DecidableEq Switch] {panel : Panel Shared Switch}
  {Local Error : Type} (switches : List Switch) {shared shared' opened worked : Shared}
  {idle frame frame' start stop : Local}

def turnedAll (panel : Panel Shared Switch) (value : Bool) (shared : Shared) : Shared :=
  switches.foldl (fun shared switch => panel.turn switch value shared) shared

theorem executes_turn_all (value : Bool) :
    Executes (Basic.stmts (turnAll switches value) : List (Stmt panel Local Error)) shared frame
      (turnedAll switches panel value shared) frame := by
  induction switches generalizing shared with
  | nil => exact Executes.nil
  | cons switch rest ih => exact (executes_turn switch value).cons ih

theorem alone_storing {value : Bool} {reset : List (Work panel Local Error)}
    (branch : Executes (Basic.stmts (if value then turnAll switches true
      else turnAll switches false ++ reset.map .work)) (panel.store value shared) frame
      shared' frame') :
    Becomes (.alone shared none idle frame (storing switches value reset))
      (.alone shared' none idle frame' []) := by
  apply alone_lock
  apply alone_unlock
  apply alone_store
  apply alone_on_flag
  rw [panel.flagStored]
  exact branch none idle [] _ (Becomes.refl _)

theorem alone_session (session : Session panel Local Error)
    (opens : Executes (Work.stmts session.opening) shared frame opened start)
    (works : Executes session.body (turnedAll switches panel false opened) start worked stop) :
    Becomes (.alone shared none idle frame (session.stmts switches))
      (.alone (if panel.flag worked then turnedAll switches panel true worked else worked) none
        idle stop []) := by
  have closes : Executes ([.onFlag (turnAll switches true) []] : List (Stmt panel Local Error))
      worked stop (if panel.flag worked then turnedAll switches panel true worked else worked)
      stop := by
    apply executes_on_flag
    cases panel.flag worked with
    | true => exact executes_turn_all switches true
    | false => exact Executes.nil
  apply alone_lock
  apply opens
  apply executes_turn_all switches false
  apply works
  apply closes
  apply alone_unlock
  exact Becomes.refl _

end Alone

end WPerf.Library.Threads
