import WPerf.Library.Movers
import WPerf.Library.Switches

/-!
# Probes that are switched

The switches of a panel turn probes on and off, and an interruption is a call
of a probe: it does nothing unless the probe is on. A section that turns all
probes off, works on the shared state, and may turn them on again absorbs the
calls of the probes, and so does a section that looks only at what the probes
leave alone.
-/

namespace WPerf.Library.Threads

open WPerf.Library.Movers

set_option autoImplicit false

section Act

variable {Shared Switch Local Error : Type} [DecidableEq Switch] {panel : Panel Shared Switch}

/-- What a statement does to the shared state and the data of its thread. The
lock is not part of either. -/
def Stmt.act : Stmt panel Local Error → Shared → Local →
    Except Error (Shared × Local × List (Stmt panel Local Error))
  | .lock, s, l => .ok (s, l, [])
  | .unlock, s, l => .ok (s, l, [])
  | .store value, s, l => .ok (panel.store value s, l, [])
  | .basic (.turn switch value), s, l => .ok (panel.turn switch value s, l, [])
  | .basic (.work work), s, l =>
      (work.step s l).map fun result =>
        (result.1, result.2.1, if result.2.2 then [.basic (.work work)] else [])
  | .onFlag yes no, s, l => .ok (s, l, Basic.stmts (if panel.flag s then yes else no))
  | .onData test yes no, s, l => .ok (s, l, Work.stmts (if test s l then yes else no))

end Act

section Probed

variable {Shared Switch Local Hit Error : Type} [DecidableEq Switch]
  (panel : Panel Shared Switch) (hit : Shared → Hit → Except Error Shared)

/-- Calls of probes that a panel turns on and off. -/
structure Probed where
  probe : Hit → Switch
  off : ∀ s h, panel.isOn s (probe h) = false → hit s h = .ok s
  keeps : ∀ s h t, hit s h = .ok t → panel.flag t = panel.flag s ∧ panel.isOn t = panel.isOn s
  turns : ∀ s h switch value,
    panel.isOn (panel.turn switch value s) (probe h) = panel.isOn s (probe h) →
      hit (panel.turn switch value s) h = (hit s h).map (panel.turn switch value)

def code : Code (Stmt panel Local Error) Shared Local Hit Error := ⟨Stmt.act, hit⟩

variable {panel hit} (probed : Probed panel hit)

def IsTurn (value : Bool) (stmt : Stmt panel Local Error) : Prop :=
  ∃ switch, stmt = .basic (.turn switch value)

include probed in
theorem turn_off_early : (code panel hit : Code (Stmt panel Local Error) Shared Local Hit Error).Early (IsTurn false) where
  closed := by
    rintro _ s l s' l' more ⟨switch, rfl⟩ acted item left
    rw [← (Prod.mk.inj (Prod.mk.inj (Except.ok.inj acted)).2).2] at left
    cases left
  passes := by
    rintro _ s l s' l' more h s'' ⟨switch, rfl⟩ acted interrupted
    obtain ⟨shared, others⟩ := Prod.mk.inj (Except.ok.inj acted)
    rw [← shared] at interrupted
    cases on : panel.isOn (panel.turn switch false s) (probed.probe h) with
    | false =>
        rw [← shared]
        exact Or.inl (Except.ok.inj ((probed.off _ h on).symm.trans interrupted)).symm
    | true =>
        -- a probe that is still on is another one
        have same : panel.isOn (panel.turn switch false s) (probed.probe h) =
            panel.isOn s (probed.probe h) := by
          rw [panel.turned] at on ⊢
          split_ifs at on ⊢
          rfl
        rw [show (code panel hit).hit _ h = hit _ h from rfl, probed.turns s h switch false same,
          Fallible.map_eq_ok_iff] at interrupted
        obtain ⟨start, first, turned⟩ := interrupted
        refine Or.inr ⟨start, first, ?_⟩
        rw [← turned, ← (Prod.mk.inj others).1, ← (Prod.mk.inj others).2]
        rfl

/-- What closes a section: the test of the flag, and the switches it turns. -/
def Rearms (stmt : Stmt panel Local Error) : Prop :=
  (∃ switches : List Switch, stmt = .onFlag (switches.map fun switch => .turn switch true) []) ∨
    IsTurn true stmt

include probed in
theorem rearm_late : (code panel hit : Code (Stmt panel Local Error) Shared Local Hit Error).Late (fun _ => True) Rearms where
  closed := by
    rintro stmt s l s' l' more (⟨switches, rfl⟩ | ⟨switch, rfl⟩) acted item left
    · rw [← (Prod.mk.inj (Prod.mk.inj (Except.ok.inj acted)).2).2] at left
      obtain ⟨basic, member, made⟩ := List.mem_map.mp left
      split_ifs at member
      · obtain ⟨switch, _, turn⟩ := List.mem_map.mp member
        exact Or.inr ⟨switch, by rw [← made, ← turn]⟩
      · cases member
    · rw [← (Prod.mk.inj (Prod.mk.inj (Except.ok.inj acted)).2).2] at left
      cases left
  keeps _ _ _ _ _ _ _ _ _ := trivial
  kept _ _ _ _ _ := trivial
  passes := by
    rintro stmt s h start l s' l' more (⟨switches, rfl⟩ | ⟨switch, rfl⟩) _ interrupted acted
    · obtain ⟨flag, _⟩ := probed.keeps s h start interrupted
      obtain ⟨shared, others⟩ := Prod.mk.inj (Except.ok.inj acted)
      rw [flag] at others
      refine Or.inr ⟨s, ?_, ?_⟩
      · rw [← (Prod.mk.inj others).1, ← (Prod.mk.inj others).2]
        rfl
      · rw [← shared]
        exact interrupted
    · obtain ⟨shared, others⟩ := Prod.mk.inj (Except.ok.inj acted)
      cases on : panel.isOn s (probed.probe h) with
      | false =>
          exact Or.inl (Except.ok.inj ((probed.off s h on).symm.trans interrupted)).symm
      | true =>
          have same : panel.isOn (panel.turn switch true s) (probed.probe h) =
              panel.isOn s (probed.probe h) := by
            rw [panel.turned, on]
            exact ite_self true
          refine Or.inr ⟨panel.turn switch true s, ?_, ?_⟩
          · rw [← (Prod.mk.inj others).1, ← (Prod.mk.inj others).2]
            rfl
          · change hit (panel.turn switch true s) h = _
            rw [probed.turns s h switch true same, show hit s h = .ok start from interrupted,
              ← shared]
            rfl

def IsPlain (stmt : Stmt panel Local Error) : Prop :=
  (∃ work, stmt = .basic (.work work)) ∨ ∃ test yes no, stmt = .onData test yes no

theorem plain_closed {stmt : Stmt panel Local Error} {s s' : Shared} {l l' : Local}
    {more : List (Stmt panel Local Error)} (plain : IsPlain stmt)
    (acted : stmt.act s l = .ok (s', l', more)) : ∀ item ∈ more, IsPlain item := by
  intro item left
  rcases plain with ⟨work, rfl⟩ | ⟨test, yes, no, rfl⟩
  · obtain ⟨result, _, same⟩ := (Fallible.map_eq_ok_iff _ _ _).mp acted
    rw [← (Prod.mk.inj (Prod.mk.inj same).2).2] at left
    split_ifs at left
    · exact Or.inl ⟨work, List.mem_singleton.mp left⟩
    · cases left
  · rw [← (Prod.mk.inj (Prod.mk.inj (Except.ok.inj acted)).2).2] at left
    exact plain_works _ item left

theorem plain_quiet {stmt : Stmt panel Local Error} {s s' : Shared} {l l' : Local}
    {more : List (Stmt panel Local Error)} (plain : IsPlain stmt)
    (acted : stmt.act s l = .ok (s', l', more)) :
    panel.flag s' = panel.flag s ∧ panel.isOn s' = panel.isOn s := by
  rcases plain with ⟨work, rfl⟩ | ⟨test, yes, no, rfl⟩
  · obtain ⟨result, stepped, same⟩ := (Fallible.map_eq_ok_iff _ _ _).mp acted
    rw [← (Prod.mk.inj same).1]
    exact work.quiet _ _ _ _ _ stepped
  · rw [← (Prod.mk.inj (Except.ok.inj acted)).1]
    exact ⟨rfl, rfl⟩

def AllOff (panel : Panel Shared Switch) (s : Shared) : Prop :=
  ∀ switch, panel.isOn s switch = false

include probed in
/-- While all probes are off, their calls change nothing. -/
theorem plain_late : (code panel hit : Code (Stmt panel Local Error) Shared Local Hit Error).Late (AllOff panel) IsPlain where
  closed _ _ _ _ _ _ plain acted := plain_closed plain acted
  keeps stmt s l s' l' more plain off acted switch := by
    rw [(plain_quiet plain acted).2]
    exact off switch
  kept s h s' off interrupted switch := by
    rw [(probed.keeps s h s' interrupted).2]
    exact off switch
  passes stmt s h start l s' l' more _ off interrupted _ :=
    Or.inl (Except.ok.inj ((probed.off s h (off _)).symm.trans interrupted)).symm

theorem turn_all_off (switches : List Switch) (s s' : Shared) (l l' : Local)
    (alone : (code panel hit).Alone
      (Basic.stmts (turnAll switches false) : List (Stmt panel Local Error)) s l s' l')
    (switch : Switch) :
    panel.isOn s' switch = if switch ∈ switches then false else panel.isOn s switch := by
  induction switches generalizing s with
  | nil =>
      rw [((alone_nil_iff s s' l l').mp alone).1]
      exact (if_neg List.not_mem_nil).symm
  | cons first rest ih =>
      obtain ⟨next, between, more, acted, later⟩ := (alone_cons_iff _ _ s s' l l').mp alone
      obtain ⟨shared, others⟩ := Prod.mk.inj (Except.ok.inj acted)
      rw [← (Prod.mk.inj others).1, ← (Prod.mk.inj others).2, ← shared] at later
      rw [ih _ later, panel.turned]
      by_cases same : switch = first
      · simp [same]
      · simp [same, List.mem_cons]

include probed in
theorem session_phases (switches : List Switch) (all : ∀ switch, switch ∈ switches)
    (opening : List (Work panel Local Error)) (early : Stmt panel Local Error → Prop)
    (isEarly : (code panel hit).Early early) (opens : ∀ work ∈ opening, early (.basic (.work work)))
    (core closing : List (Stmt panel Local Error)) (plain : ∀ stmt ∈ core, IsPlain stmt)
    (rearms : ∀ stmt ∈ closing, Rearms stmt) :
    (code panel hit).Phases (AllOff panel)
      (Work.stmts opening ++ Basic.stmts (turnAll switches false)) core closing where
  opens := by
    refine ⟨_, isEarly.or (turn_off_early probed), fun stmt member => ?_⟩
    rcases List.mem_append.mp member with work | turn
    · obtain ⟨basic, inBasics, made⟩ := List.mem_map.mp work
      obtain ⟨work, inOpening, same⟩ := List.mem_map.mp inBasics
      rw [← made, ← same]
      exact Or.inl (opens work inOpening)
    · obtain ⟨basic, inTurns, made⟩ := List.mem_map.mp turn
      obtain ⟨switch, _, same⟩ := List.mem_map.mp inTurns
      rw [← made, ← same]
      exact Or.inr ⟨switch, rfl⟩
  shuts s l s' l' alone switch := by
    obtain ⟨middle, between, _, turns⟩ := (alone_append_iff _ _ s s' l l').mp alone
    rw [turn_all_off switches middle s' between l' turns switch, if_pos (all switch)]
  works := ⟨IsPlain, plain_late probed, plain⟩
  closes := ⟨Rearms, rearm_late probed, rearms⟩

/-- A work that finds and leaves the same, whether a call of a probe comes before
it or after it. -/
def Overlooks (hit : Shared → Hit → Except Error Shared) (work : Work panel Local Error) : Prop :=
  (∀ s l s' result, work.step s l = .ok (s', result) → s' = s) ∧
    ∀ s h t l, hit s h = .ok t → (work.step t l).map Prod.snd = (work.step s l).map Prod.snd

def Reads (hit : Shared → Hit → Except Error Shared) (stmt : Stmt panel Local Error) : Prop :=
  (∃ work, Overlooks hit work ∧ stmt = .basic (.work work)) ∨
    ∃ test yes no, (∀ s h t l, hit s h = .ok t → test t l = test s l) ∧
      (∀ work ∈ yes ++ no, Overlooks hit work) ∧ stmt = .onData test yes no

theorem overlooked {work : Work panel Local Error} (overlooks : Overlooks hit work) {s t t' : Shared}
    {h : Hit} {l : Local} {result : Local × Bool} (interrupted : hit s h = .ok t)
    (stepped : work.step t l = .ok (t', result)) : t' = t ∧ work.step s l = .ok (s, result) := by
  have same := overlooks.2 s h t l interrupted
  rw [stepped] at same
  obtain ⟨⟨s', other⟩, found, equal⟩ := (Fallible.map_eq_ok_iff _ _ _).mp same.symm
  refine ⟨overlooks.1 t l t' result stepped, ?_⟩
  rw [found, overlooks.1 s l s' other found]
  exact congrArg (fun result => Except.ok (s, result)) equal

theorem reads_late : (code panel hit : Code (Stmt panel Local Error) Shared Local Hit Error).Late (fun _ => True) (Reads hit) where
  closed := by
    rintro stmt s l s' l' more (⟨work, overlooks, rfl⟩ | ⟨test, yes, no, _, works, rfl⟩) acted item left
    · obtain ⟨result, _, same⟩ := (Fallible.map_eq_ok_iff _ _ _).mp acted
      rw [← (Prod.mk.inj (Prod.mk.inj same).2).2] at left
      split_ifs at left
      · exact Or.inl ⟨work, overlooks, List.mem_singleton.mp left⟩
      · cases left
    · rw [← (Prod.mk.inj (Prod.mk.inj (Except.ok.inj acted)).2).2] at left
      obtain ⟨basic, inBasics, made⟩ := List.mem_map.mp left
      obtain ⟨work, member, same⟩ := List.mem_map.mp inBasics
      refine Or.inl ⟨work, works work ?_, by rw [← made, ← same]⟩
      split_ifs at member
      · exact List.mem_append_left no member
      · exact List.mem_append_right yes member
  keeps _ _ _ _ _ _ _ _ _ := trivial
  kept _ _ _ _ _ := trivial
  passes := by
    rintro stmt s h start l s' l' more (⟨work, overlooks, rfl⟩ | ⟨test, yes, no, blind, _, rfl⟩) _
      interrupted acted
    · obtain ⟨⟨after, result⟩, stepped, same⟩ := (Fallible.map_eq_ok_iff _ _ _).mp acted
      obtain ⟨kept, first⟩ := overlooked overlooks interrupted stepped
      obtain ⟨shared, others⟩ := Prod.mk.inj same
      refine Or.inr ⟨s, ?_, ?_⟩
      · exact (Fallible.map_eq_ok_iff _ _ _).mpr ⟨_, first, by rw [← others]⟩
      · rw [← shared, kept]
        exact interrupted
    · obtain ⟨shared, others⟩ := Prod.mk.inj (Except.ok.inj acted)
      rw [blind s h start l interrupted] at others
      refine Or.inr ⟨s, ?_, ?_⟩
      · rw [← others]
        rfl
      · rw [← shared]
        exact interrupted

theorem reads_phases {stmts : List (Stmt panel Local Error)} (reads : ∀ stmt ∈ stmts, Reads hit stmt) :
    (code panel hit).Phases (fun _ => True) [] [] stmts where
  opens := ⟨fun _ => False, ⟨fun _ _ _ _ _ _ never => never.elim, fun _ _ _ _ _ _ _ _ never => never.elim⟩,
    fun _ member => absurd member List.not_mem_nil⟩
  shuts _ _ _ _ _ := trivial
  works := ⟨Reads hit, reads_late, fun _ member => absurd member List.not_mem_nil⟩
  closes := ⟨Reads hit, reads_late, reads⟩

end Probed

section Alone

variable {Shared Switch Local Hit Error Item : Type} [DecidableEq Switch]
  {panel : Panel Shared Switch} {hit : Shared → Hit → Except Error Shared}
  {rest : List (Stmt panel Local Error)} {s s' : Shared} {l l' : Local}

theorem alone_work_cons_iff (work : Work panel Local Error) :
    (code panel hit).Alone (.basic (.work work) :: rest) s l s' l' ↔
      ∃ next between again, work.step s l = .ok (next, between, again) ∧
        (code panel hit).Alone (if again then .basic (.work work) :: rest else rest) next between
          s' l' := by
  rw [alone_cons_iff]
  constructor
  · rintro ⟨next, between, more, acted, later⟩
    obtain ⟨⟨shared, frame, again⟩, stepped, same⟩ := (Fallible.map_eq_ok_iff _ _ _).mp acted
    obtain ⟨first, others⟩ := Prod.mk.inj same
    rw [← first, ← (Prod.mk.inj others).1, ← (Prod.mk.inj others).2] at later
    refine ⟨shared, frame, again, stepped, ?_⟩
    cases again with
    | false => exact later
    | true => exact later
  · rintro ⟨next, between, again, stepped, later⟩
    refine ⟨next, between, _, (Fallible.map_eq_ok_iff _ _ _).mpr ⟨_, stepped, rfl⟩, ?_⟩
    cases again with
    | false => exact later
    | true => exact later

theorem alone_on_flag_iff (yes no : List (Basic panel Local Error)) :
    (code panel hit).Alone (.onFlag yes no :: rest) s l s' l' ↔
      (code panel hit).Alone (Basic.stmts (if panel.flag s then yes else no) ++ rest) s l s' l' := by
  rw [alone_cons_iff]
  constructor
  · rintro ⟨next, between, more, acted, later⟩
    obtain ⟨first, others⟩ := Prod.mk.inj (Except.ok.inj acted)
    rw [← first, ← (Prod.mk.inj others).1, ← (Prod.mk.inj others).2] at later
    exact later
  · exact fun later => ⟨s, l, _, rfl, later⟩

theorem alone_on_data_iff (test : Shared → Local → Bool) (yes no : List (Work panel Local Error)) :
    (code panel hit).Alone (.onData test yes no :: rest) s l s' l' ↔
      (code panel hit).Alone (Work.stmts (if test s l then yes else no) ++ rest) s l s' l' := by
  rw [alone_cons_iff]
  constructor
  · rintro ⟨next, between, more, acted, later⟩
    obtain ⟨first, others⟩ := Prod.mk.inj (Except.ok.inj acted)
    rw [← first, ← (Prod.mk.inj others).1, ← (Prod.mk.inj others).2] at later
    exact later
  · exact fun later => ⟨s, l, _, rfl, later⟩

theorem alone_turn_all_iff (switches : List Switch) (value : Bool) :
    (code panel hit).Alone (Basic.stmts (turnAll switches value) ++ rest) s l s' l' ↔
      (code panel hit).Alone rest (turnedAll switches panel value s) l s' l' := by
  induction switches generalizing s with
  | nil => exact Iff.rfl
  | cons switch others ih =>
      refine Iff.trans ?_ ih
      refine (alone_cons_iff _ _ s s' l l').trans ?_
      constructor
      · rintro ⟨next, between, more, acted, later⟩
        obtain ⟨first, others⟩ := Prod.mk.inj (Except.ok.inj acted)
        rw [← first, ← (Prod.mk.inj others).1, ← (Prod.mk.inj others).2] at later
        exact later
      · exact fun later => ⟨_, l, _, rfl, later⟩

theorem alone_rearm_iff (switches : List Switch) :
    (code panel hit).Alone ([.onFlag (turnAll switches true) []] : List (Stmt panel Local Error))
        s l s' l' ↔
      (if panel.flag s then turnedAll switches panel true s else s) = s' ∧ l = l' := by
  refine (alone_on_flag_iff _ _).trans ?_
  cases panel.flag s with
  | true => exact (alone_turn_all_iff switches true).trans (alone_nil_iff _ s' l l')
  | false => exact alone_nil_iff s s' l l'

theorem alone_changes_iff (line : Item → Work panel Local Error)
    (change : Shared → Item → Except Error Shared)
    (once : ∀ item s l, (line item).step s l = (change s item).map fun next => (next, l, false))
    (items : List Item) :
    (code panel hit).Alone (Work.stmts (items.map line) ++ rest) s l s' l' ↔
      ∃ next, items.foldlM change s = .ok next ∧ (code panel hit).Alone rest next l s' l' := by
  induction items generalizing s with
  | nil =>
      constructor
      · exact fun later => ⟨s, rfl, later⟩
      · rintro ⟨next, same, later⟩
        rw [Except.ok.inj same]
        exact later
  | cons item others ih =>
      refine (alone_work_cons_iff (line item)).trans ?_
      rw [once]
      constructor
      · rintro ⟨next, between, again, stepped, later⟩
        obtain ⟨changed, first, same⟩ := (Fallible.map_eq_ok_iff _ _ _).mp stepped
        obtain ⟨shared, others⟩ := Prod.mk.inj same
        rw [← shared, ← (Prod.mk.inj others).1, ← (Prod.mk.inj others).2] at later
        obtain ⟨final, remaining, last⟩ := ih.mp later
        exact ⟨final, (Fallible.foldlM_cons_eq_ok_iff _ _ _ _ _).mpr ⟨changed, first, remaining⟩, last⟩
      · rintro ⟨final, ran, last⟩
        obtain ⟨changed, first, remaining⟩ := (Fallible.foldlM_cons_eq_ok_iff _ _ _ _ _).mp ran
        refine ⟨changed, l, false, ?_, ih.mpr ⟨final, remaining, last⟩⟩
        rw [first]
        rfl

end Alone

end WPerf.Library.Threads
