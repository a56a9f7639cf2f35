import WPerf.Library.Runs

/-!
# Statements and interruptions

Between the statements of a section of code, interruptions change the shared
state. Some statements let an interruption pass to the time before them, some
let one that came before them pass to the time behind them, and an interruption
that changes nothing can be dropped. Where the statements of a section do so in
this order, the section runs as if it had not been interrupted.
-/

namespace WPerf.Library.Movers

set_option autoImplicit false

/-- What a statement does, with the statements it leaves to execute before the
next one, and what an interruption does. -/
structure Code (Stmt Shared Local Hit Error : Type) where
  act : Stmt → Shared → Local → Except Error (Shared × Local × List Stmt)
  hit : Shared → Hit → Except Error Shared

section Interrupted

variable {Stmt Shared Local Hit Error : Type} (code : Code Stmt Shared Local Hit Error)

/-- Statements executed to their end while interruptions fall between them. -/
inductive Code.Beside : List Stmt → Shared → Local → List Hit → Shared → Local → Prop where
  | done (s : Shared) (l : Local) : Code.Beside [] s l [] s l
  | hit {stmts : List Stmt} {s next s' : Shared} {l l' : Local} {h : Hit} {hits : List Hit}
      (interrupted : code.hit s h = .ok next) (later : Code.Beside stmts next l hits s' l') :
      Code.Beside stmts s l (h :: hits) s' l'
  | act {stmt : Stmt} {rest more : List Stmt} {s next s' : Shared} {l between l' : Local}
      {hits : List Hit} (acted : code.act stmt s l = .ok (next, between, more))
      (later : Code.Beside (more ++ rest) next between hits s' l') :
      Code.Beside (stmt :: rest) s l hits s' l'

def Code.Alone (stmts : List Stmt) (s : Shared) (l : Local) (s' : Shared) (l' : Local) : Prop :=
  code.Beside stmts s l [] s' l'

/-- However a section is interrupted, it does what it does alone between some
of the interruptions. -/
def Code.Absorbs (stmts : List Stmt) : Prop :=
  ∀ s l hits s' l', code.Beside stmts s l hits s' l' →
    ∃ before after start stop, (before ++ after).Sublist hits ∧
      Runs.run code.hit s before = .ok start ∧ code.Alone stmts start l stop l' ∧
        Runs.run code.hit stop after = .ok s'

variable {code}

theorem beside_nil_iff (s s' : Shared) (l l' : Local) (hits : List Hit) :
    code.Beside [] s l hits s' l' ↔ Runs.run code.hit s hits = .ok s' ∧ l = l' := by
  constructor
  · intro beside
    generalize empty : ([] : List Stmt) = stmts at beside
    induction beside with
    | done s l => exact ⟨rfl, rfl⟩
    | hit interrupted later ih =>
        obtain ⟨ran, same⟩ := ih empty
        exact ⟨(Runs.run_cons_iff _ _ _ _).mpr ⟨_, interrupted, ran⟩, same⟩
    | act acted later ih => cases empty
  · intro ⟨ran, same⟩
    rw [← same]
    induction hits generalizing s with
    | nil =>
        rw [Except.ok.inj ran]
        exact .done s' l
    | cons h rest ih =>
        obtain ⟨next, first, remaining⟩ := (Runs.run_cons_iff s s' h rest).mp ran
        exact .hit first (ih next remaining)

theorem alone_nil_iff (s s' : Shared) (l l' : Local) :
    code.Alone [] s l s' l' ↔ s = s' ∧ l = l' := by
  rw [Code.Alone, beside_nil_iff]
  exact and_congr_left' ⟨fun ran => Except.ok.inj ran, fun same => congrArg Except.ok same⟩

theorem alone_cons_iff (stmt : Stmt) (rest : List Stmt) (s s' : Shared) (l l' : Local) :
    code.Alone (stmt :: rest) s l s' l' ↔
      ∃ next between more, code.act stmt s l = .ok (next, between, more) ∧
        code.Alone (more ++ rest) next between s' l' := by
  constructor
  · intro alone
    cases alone with
    | act acted later => exact ⟨_, _, _, acted, later⟩
  · intro ⟨next, between, more, acted, later⟩
    exact .act acted later

theorem Code.Beside.append {front back : List Stmt} {s middle s' : Shared} {l between l' : Local}
    {before after : List Hit} (first : code.Beside front s l before middle between)
    (second : code.Beside back middle between after s' l') :
    code.Beside (front ++ back) s l (before ++ after) s' l' := by
  induction first with
  | done s l => exact second
  | hit interrupted later ih => exact .hit interrupted (ih second)
  | act acted later ih =>
      rw [List.cons_append]
      refine .act acted ?_
      rw [← List.append_assoc]
      exact ih second

theorem Code.Beside.split {front back : List Stmt} {s s' : Shared} {l l' : Local} {hits : List Hit}
    (beside : code.Beside (front ++ back) s l hits s' l') :
    ∃ before after middle between, hits = before ++ after ∧
      code.Beside front s l before middle between ∧ code.Beside back middle between after s' l' := by
  generalize whole : front ++ back = stmts at beside
  induction beside generalizing front with
  | done s l =>
      obtain ⟨noFront, noBack⟩ := List.append_eq_nil_iff.mp whole
      rw [noFront, noBack]
      exact ⟨[], [], s, l, rfl, .done s l, .done s l⟩
  | hit interrupted later ih =>
      obtain ⟨before, after, middle, between, split, first, second⟩ := ih whole
      exact ⟨_ :: before, after, middle, between, congrArg _ split, .hit interrupted first, second⟩
  | @act stmt rest more s next s' l between l' hits acted later ih =>
      cases front with
      | nil =>
          rw [List.nil_append] at whole
          rw [whole]
          exact ⟨[], hits, s, l, rfl, .done s l, .act acted later⟩
      | cons first others =>
          obtain ⟨same, remaining⟩ := List.cons.inj ((List.cons_append ..).symm.trans whole)
          rw [← remaining, ← List.append_assoc] at ih
          obtain ⟨before, after, middle, between, split, front, back⟩ := ih rfl
          rw [same]
          exact ⟨before, after, middle, between, split, .act acted front, back⟩

theorem alone_append_iff (front back : List Stmt) (s s' : Shared) (l l' : Local) :
    code.Alone (front ++ back) s l s' l' ↔
      ∃ middle between, code.Alone front s l middle between ∧
        code.Alone back middle between s' l' := by
  constructor
  · intro alone
    obtain ⟨before, after, middle, between, none, first, second⟩ := alone.split
    obtain ⟨noBefore, noAfter⟩ := List.append_eq_nil_iff.mp none.symm
    rw [noBefore] at first
    rw [noAfter] at second
    exact ⟨middle, between, first, second⟩
  · intro ⟨middle, between, first, second⟩
    exact first.append second

end Interrupted

section Passing

variable {Stmt Shared Local Hit Error : Type} (code : Code Stmt Shared Local Hit Error)

/-- Statements that an interruption behind them can be moved before, with all
that they leave to execute. -/
structure Code.Early (stmts : Stmt → Prop) : Prop where
  closed : ∀ stmt s l s' l' more, stmts stmt → code.act stmt s l = .ok (s', l', more) →
    ∀ item ∈ more, stmts item
  passes : ∀ stmt s l s' l' more h s'', stmts stmt → code.act stmt s l = .ok (s', l', more) →
    code.hit s' h = .ok s'' →
      s'' = s' ∨ ∃ start, code.hit s h = .ok start ∧ code.act stmt start l = .ok (s'', l', more)

/-- Statements that an interruption before them can be moved behind, as long as
the shared state keeps an invariant. -/
structure Code.Late (invariant : Shared → Prop) (stmts : Stmt → Prop) : Prop where
  closed : ∀ stmt s l s' l' more, stmts stmt → code.act stmt s l = .ok (s', l', more) →
    ∀ item ∈ more, stmts item
  keeps : ∀ stmt s l s' l' more, stmts stmt → invariant s →
    code.act stmt s l = .ok (s', l', more) → invariant s'
  kept : ∀ s h s', invariant s → code.hit s h = .ok s' → invariant s'
  passes : ∀ stmt s h start l s' l' more, stmts stmt → invariant s → code.hit s h = .ok start →
    code.act stmt start l = .ok (s', l', more) →
      start = s ∨ ∃ stop, code.act stmt s l = .ok (stop, l', more) ∧ code.hit stop h = .ok s'

variable {code}

theorem Code.Early.before {stmts : Stmt → Prop} (early : code.Early stmts) {stmt : Stmt}
    (member : stmts stmt) {s s' s'' : Shared} {l l' : Local} {more : List Stmt} {hits : List Hit}
    (acted : code.act stmt s l = .ok (s', l', more)) (ran : Runs.run code.hit s' hits = .ok s'') :
    ∃ before start, before.Sublist hits ∧ Runs.run code.hit s before = .ok start ∧
      code.act stmt start l = .ok (s'', l', more) := by
  induction hits generalizing s s' with
  | nil =>
      rw [← Except.ok.inj ran]
      exact ⟨[], s, List.Sublist.slnil, rfl, acted⟩
  | cons h rest ih =>
      obtain ⟨next, first, remaining⟩ := (Runs.run_cons_iff s' s'' h rest).mp ran
      rcases early.passes stmt s l s' l' more h next member acted first with same | passed
      · rw [same] at remaining
        obtain ⟨before, start, sublist, ranBefore, actedThen⟩ := ih acted remaining
        exact ⟨before, start, sublist.cons h, ranBefore, actedThen⟩
      · obtain ⟨moved, hitFirst, actedNext⟩ := passed
        obtain ⟨before, start, sublist, ranBefore, actedThen⟩ := ih actedNext remaining
        exact ⟨h :: before, start, sublist.cons_cons h,
          (Runs.run_cons_iff _ _ _ _).mpr ⟨moved, hitFirst, ranBefore⟩, actedThen⟩

theorem Code.Early.absorbs {stmts : Stmt → Prop} (early : code.Early stmts) {block : List Stmt}
    (members : ∀ stmt ∈ block, stmts stmt) {s s' : Shared} {l l' : Local} {hits : List Hit}
    (beside : code.Beside block s l hits s' l') :
    ∃ before start, before.Sublist hits ∧ Runs.run code.hit s before = .ok start ∧
      code.Alone block start l s' l' := by
  induction beside with
  | done s l => exact ⟨[], s, List.Sublist.slnil, rfl, .done s l⟩
  | @hit stmts s next s' l l' h hits interrupted later ih =>
      obtain ⟨before, start, sublist, ran, alone⟩ := ih members
      exact ⟨h :: before, start, sublist.cons_cons h,
        (Runs.run_cons_iff _ _ _ _).mpr ⟨next, interrupted, ran⟩, alone⟩
  | @act stmt rest more s next s' l between l' hits acted later ih =>
      rw [List.forall_mem_cons] at members
      have remaining : ∀ item ∈ more ++ rest, stmts item := by
        intro item member
        rcases List.mem_append.mp member with left | inRest
        · exact early.closed stmt s l next between more members.1 acted item left
        · exact members.2 item inRest
      obtain ⟨after, start, sublist, ran, alone⟩ := ih remaining
      obtain ⟨before, first, narrower, ranBefore, actedThen⟩ := early.before members.1 acted ran
      exact ⟨before, first, narrower.trans sublist, ranBefore, .act actedThen alone⟩

theorem Code.Late.behind {invariant : Shared → Prop} {stmts : Stmt → Prop}
    (late : code.Late invariant stmts) {block : List Stmt}
    (members : ∀ stmt ∈ block, stmts stmt) {s start s' : Shared} {l l' : Local} {h : Hit}
    (holds : invariant s) (interrupted : code.hit s h = .ok start)
    (alone : code.Alone block start l s' l') :
    ∃ after stop, after.Sublist [h] ∧ code.Alone block s l stop l' ∧
      Runs.run code.hit stop after = .ok s' := by
  unfold Code.Alone at alone ⊢
  generalize none : ([] : List Hit) = hits at alone
  induction alone generalizing s with
  | done start l =>
      rw [← none]
      exact ⟨[h], s, List.Sublist.refl _, .done s l,
        (Runs.run_cons_iff _ _ _ _).mpr ⟨start, interrupted, rfl⟩⟩
  | hit again later ih => cases none
  | @act stmt rest more start next s' l between l' hits acted later ih =>
      rw [List.forall_mem_cons] at members
      rcases late.passes stmt s h start l next between more members.1 holds interrupted acted
        with same | passed
      · rw [same] at acted
        exact ⟨[], s', List.nil_sublist _, .act acted later, rfl⟩
      · obtain ⟨stop, actedFirst, hitThen⟩ := passed
        have remaining : ∀ item ∈ more ++ rest, stmts item := by
          intro item member
          rcases List.mem_append.mp member with left | inRest
          · exact late.closed stmt s l stop between more members.1 actedFirst item left
          · exact members.2 item inRest
        obtain ⟨after, last, sublist, beside, ran⟩ := ih remaining
          (late.keeps stmt s l stop between more members.1 holds actedFirst) hitThen none
        exact ⟨after, last, sublist, .act actedFirst beside, ran⟩

theorem Code.Late.behind_all {invariant : Shared → Prop} {stmts : Stmt → Prop}
    (late : code.Late invariant stmts) {block : List Stmt}
    (members : ∀ stmt ∈ block, stmts stmt) {s start s' : Shared} {l l' : Local}
    {hits : List Hit} (holds : invariant s) (ran : Runs.run code.hit s hits = .ok start)
    (alone : code.Alone block start l s' l') :
    ∃ after stop, after.Sublist hits ∧ code.Alone block s l stop l' ∧
      Runs.run code.hit stop after = .ok s' := by
  induction hits generalizing s with
  | nil =>
      rw [← Except.ok.inj ran] at alone
      exact ⟨[], s', List.Sublist.slnil, alone, rfl⟩
  | cons h rest ih =>
      obtain ⟨next, first, remaining⟩ := (Runs.run_cons_iff s start h rest).mp ran
      obtain ⟨after, stop, sublist, whole, ranAfter⟩ := ih (late.kept s h next holds first) remaining
      obtain ⟨moved, last, single, beside, ranMoved⟩ := late.behind members holds first whole
      exact ⟨moved ++ after, last, single.append sublist, beside,
        (Runs.run_append_iff _ _ _ _).mpr ⟨stop, ranMoved, ranAfter⟩⟩

theorem Code.Late.absorbs {invariant : Shared → Prop} {stmts : Stmt → Prop}
    (late : code.Late invariant stmts) {block : List Stmt}
    (members : ∀ stmt ∈ block, stmts stmt) {s s' : Shared} {l l' : Local} {hits : List Hit}
    (holds : invariant s) (beside : code.Beside block s l hits s' l') :
    ∃ after stop, after.Sublist hits ∧ code.Alone block s l stop l' ∧
      Runs.run code.hit stop after = .ok s' := by
  induction beside with
  | done s l => exact ⟨[], s, List.Sublist.slnil, .done s l, rfl⟩
  | @hit stmts s next s' l l' h hits interrupted later ih =>
      obtain ⟨after, stop, sublist, alone, ran⟩ := ih members (late.kept s h next holds interrupted)
      obtain ⟨moved, last, single, first, ranMoved⟩ := late.behind members holds interrupted alone
      exact ⟨moved ++ after, last, single.append sublist, first,
        (Runs.run_append_iff _ _ _ _).mpr ⟨stop, ranMoved, ran⟩⟩
  | @act stmt rest more s next s' l between l' hits acted later ih =>
      rw [List.forall_mem_cons] at members
      have remaining : ∀ item ∈ more ++ rest, stmts item := by
        intro item member
        rcases List.mem_append.mp member with left | inRest
        · exact late.closed stmt s l next between more members.1 acted item left
        · exact members.2 item inRest
      obtain ⟨after, stop, sublist, alone, ran⟩ := ih remaining
        (late.keeps stmt s l next between more members.1 holds acted)
      exact ⟨after, stop, sublist, .act acted alone, ran⟩

theorem Code.Early.or {one two : Stmt → Prop} (first : code.Early one) (second : code.Early two) :
    code.Early fun stmt => one stmt ∨ two stmt where
  closed stmt s l s' l' more member acted item left := by
    rcases member with inOne | inTwo
    · exact Or.inl (first.closed stmt s l s' l' more inOne acted item left)
    · exact Or.inr (second.closed stmt s l s' l' more inTwo acted item left)
  passes stmt s l s' l' more h s'' member acted interrupted := by
    rcases member with inOne | inTwo
    · exact first.passes stmt s l s' l' more h s'' inOne acted interrupted
    · exact second.passes stmt s l s' l' more h s'' inTwo acted interrupted

/-- A section that opens with statements of the first kind, which bring about
an invariant, goes on with statements of the second kind under it, and closes
with statements of the second kind. -/
structure Code.Phases (code : Code Stmt Shared Local Hit Error) (invariant : Shared → Prop)
    (opening core closing : List Stmt) : Prop where
  opens : ∃ stmts, code.Early stmts ∧ ∀ stmt ∈ opening, stmts stmt
  shuts : ∀ s l s' l', code.Alone opening s l s' l' → invariant s'
  works : ∃ stmts, code.Late invariant stmts ∧ ∀ stmt ∈ core, stmts stmt
  closes : ∃ stmts, code.Late (fun _ => True) stmts ∧ ∀ stmt ∈ closing, stmts stmt

theorem Code.Phases.absorbs {invariant : Shared → Prop} {opening core closing : List Stmt}
    (phases : code.Phases invariant opening core closing) :
    code.Absorbs (opening ++ (core ++ closing)) := by
  intro s l hits s' l' beside
  obtain ⟨early, isEarly, inOpening⟩ := phases.opens
  obtain ⟨still, isStill, inCore⟩ := phases.works
  obtain ⟨late, isLate, inClosing⟩ := phases.closes
  obtain ⟨atFirst, others, opened, first, all, openingRan, remaining⟩ := beside.split
  obtain ⟨meanwhile, atLast, worked, second, both, coreRan, closingRan⟩ := remaining.split
  obtain ⟨before, start, narrow, ranBefore, openingAlone⟩ := isEarly.absorbs inOpening openingRan
  have shut := phases.shuts start l opened first openingAlone
  obtain ⟨between, coreEnd, narrowCore, coreAlone, ranBetween⟩ :=
    isStill.absorbs inCore shut coreRan
  obtain ⟨after, stop, narrowLast, closingAlone, ranAfter⟩ :=
    isLate.absorbs inClosing trivial closingRan
  -- what the core let pass goes on behind the closing statements
  obtain ⟨moved, last, narrower, closingFirst, ranMoved⟩ :=
    isLate.behind_all inClosing trivial ranBetween closingAlone
  refine ⟨before, moved ++ after, start, last, ?_, ranBefore, ?_, ?_⟩
  · rw [all, both]
    exact narrow.append ((narrower.trans narrowCore).append narrowLast)
  · exact (alone_append_iff _ _ _ _ _ _).mpr ⟨opened, first, openingAlone,
      (alone_append_iff _ _ _ _ _ _).mpr ⟨coreEnd, second, coreAlone, closingFirst⟩⟩
  · exact (Runs.run_append_iff _ _ _ _).mpr ⟨stop, ranMoved, ranAfter⟩

def Code.Phased (code : Code Stmt Shared Local Hit Error) (block : List Stmt) : Prop :=
  ∃ invariant opening core closing, block = opening ++ (core ++ closing) ∧
    code.Phases invariant opening core closing

theorem Code.Phased.absorbs {block : List Stmt} (phased : code.Phased block) :
    code.Absorbs block := by
  obtain ⟨_, _, _, _, split, phases⟩ := phased
  rw [split]
  exact phases.absorbs

end Passing

section Component

variable {Stmt Shared Hit Stmt' Shared' Hit' Local Error : Type}

/-- A code that works on one component of a larger state. The interruptions of
the larger state are its own or work on the rest of the state. -/
structure Component (part : Code Stmt Shared Local Hit Error)
    (whole : Code Stmt' Shared' Local Hit' Error) where
  get : Shared' → Shared
  put : Shared' → Shared → Shared'
  stmt : Stmt → Stmt'
  get_put : ∀ s value, get (put s value) = value
  put_get : ∀ s, put s (get s) = s
  put_put : ∀ s value other, put (put s value) other = put s other
  act_eq : ∀ item s l, whole.act (stmt item) s l =
    (part.act item (get s) l).map fun result =>
      (put s result.1, result.2.1, result.2.2.map stmt)
  hit_cases : ∀ h, (∃ own, ∀ s, whole.hit s h = (part.hit (get s) own).map (put s)) ∨
    ∀ s t, whole.hit s h = .ok t → get t = get s ∧ ∀ value, whole.hit (put s value) h = .ok (put t value)

variable {part : Code Stmt Shared Local Hit Error} {whole : Code Stmt' Shared' Local Hit' Error}
  (component : Component part whole)

theorem Component.act_iff (item : Stmt) (s s' : Shared') (l l' : Local) (more' : List Stmt') :
    whole.act (component.stmt item) s l = .ok (s', l', more') ↔
      ∃ value more, part.act item (component.get s) l = .ok (value, l', more) ∧
        s' = component.put s value ∧ more' = more.map component.stmt := by
  rw [component.act_eq, Fallible.map_eq_ok_iff]
  constructor
  · rintro ⟨⟨value, between, more⟩, acted, same⟩
    obtain ⟨shared, others⟩ := Prod.mk.inj same
    obtain ⟨frame, left⟩ := Prod.mk.inj others
    exact ⟨value, more, by rw [acted, ← frame], shared.symm, left.symm⟩
  · rintro ⟨value, more, acted, shared, left⟩
    exact ⟨_, acted, by rw [shared, left]⟩

theorem Component.closed {stmts : Stmt → Prop}
    (closed : ∀ stmt s l s' l' more, stmts stmt → part.act stmt s l = .ok (s', l', more) →
      ∀ item ∈ more, stmts item)
    (stmt' : Stmt') (s : Shared') (l : Local) (s' : Shared') (l' : Local) (more' : List Stmt')
    (member : ∃ item, stmts item ∧ component.stmt item = stmt')
    (acted : whole.act stmt' s l = .ok (s', l', more')) :
    ∀ item' ∈ more', ∃ item, stmts item ∧ component.stmt item = item' := by
  obtain ⟨item, isStmt, same⟩ := member
  rw [← same] at acted
  obtain ⟨value, more, actedPart, _, left⟩ := (component.act_iff item s s' l l' more').mp acted
  intro item' inMore
  rw [left] at inMore
  obtain ⟨other, member, made⟩ := List.mem_map.mp inMore
  exact ⟨other, closed item _ l value l' more isStmt actedPart other member, made⟩

theorem Component.early {stmts : Stmt → Prop} (early : part.Early stmts) :
    whole.Early fun stmt' => ∃ item, stmts item ∧ component.stmt item = stmt' where
  closed := component.closed early.closed
  passes := by
    rintro _ s l s' l' more' h s'' ⟨item, isStmt, rfl⟩ acted interrupted
    obtain ⟨value, more, actedPart, shared, left⟩ := (component.act_iff item s s' l l' more').mp acted
    rw [shared] at interrupted ⊢
    rcases component.hit_cases h with ⟨own, hits⟩ | foreign
    · rw [hits, Fallible.map_eq_ok_iff, component.get_put] at interrupted
      obtain ⟨value', hitPart, same⟩ := interrupted
      rw [component.put_put] at same
      rw [← same]
      rcases early.passes item _ l value l' more own value' isStmt actedPart hitPart
        with still | ⟨start, hitFirst, actedThen⟩
      · exact Or.inl (by rw [still])
      · refine Or.inr ⟨component.put s start, ?_, ?_⟩
        · rw [hits, hitFirst]
          rfl
        · refine (component.act_iff ..).mpr ⟨value', more, ?_, ?_, left⟩
          · rw [component.get_put]
            exact actedThen
          · rw [component.put_put]
    · obtain ⟨kept, elsewhere⟩ := foreign _ _ interrupted
      rw [component.get_put] at kept
      have first := elsewhere (component.get s)
      rw [component.put_put, component.put_get] at first
      refine Or.inr ⟨_, first, (component.act_iff ..).mpr ⟨value, more, ?_, ?_, left⟩⟩
      · rw [component.get_put]
        exact actedPart
      · rw [component.put_put, ← kept, component.put_get]

theorem Component.late {invariant : Shared → Prop} {stmts : Stmt → Prop}
    (late : part.Late invariant stmts) :
    whole.Late (fun s => invariant (component.get s))
      fun stmt' => ∃ item, stmts item ∧ component.stmt item = stmt' where
  closed := component.closed late.closed
  keeps := by
    rintro _ s l s' l' more' ⟨item, isStmt, rfl⟩ holds acted
    obtain ⟨value, more, actedPart, shared, _⟩ := (component.act_iff item s s' l l' more').mp acted
    rw [shared, component.get_put]
    exact late.keeps item _ l value l' more isStmt holds actedPart
  kept := by
    intro s h s' holds interrupted
    rcases component.hit_cases h with ⟨own, hits⟩ | foreign
    · rw [hits, Fallible.map_eq_ok_iff] at interrupted
      obtain ⟨value, hitPart, same⟩ := interrupted
      rw [← same, component.get_put]
      exact late.kept _ own value holds hitPart
    · rw [(foreign s s' interrupted).1]
      exact holds
  passes := by
    rintro _ s h start l s' l' more' ⟨item, isStmt, rfl⟩ holds interrupted acted
    obtain ⟨value, more, actedPart, shared, left⟩ :=
      (component.act_iff item start s' l l' more').mp acted
    rcases component.hit_cases h with ⟨own, hits⟩ | foreign
    · rw [hits, Fallible.map_eq_ok_iff] at interrupted
      obtain ⟨first, hitPart, same⟩ := interrupted
      rw [← same, component.get_put] at actedPart
      rw [← same, component.put_put] at shared
      rcases late.passes item _ own first l value l' more isStmt holds hitPart actedPart
        with still | ⟨stop, actedFirst, hitThen⟩
      · exact Or.inl (by rw [← same, still, component.put_get])
      · refine Or.inr ⟨component.put s stop,
          (component.act_iff ..).mpr ⟨stop, more, actedFirst, rfl, left⟩, ?_⟩
        rw [hits, component.get_put, hitThen, shared]
        exact congrArg Except.ok (component.put_put ..)
    · obtain ⟨kept, elsewhere⟩ := foreign s start interrupted
      rw [kept] at actedPart
      refine Or.inr ⟨component.put s value,
        (component.act_iff ..).mpr ⟨value, more, actedPart, rfl, left⟩, ?_⟩
      rw [shared]
      exact elsewhere value

theorem Component.alone {block : List Stmt} {s s' : Shared'} {l l' : Local}
    (alone : whole.Alone (block.map component.stmt) s l s' l') :
    ∃ value, part.Alone block (component.get s) l value l' ∧ s' = component.put s value := by
  unfold Code.Alone at alone
  generalize made : block.map component.stmt = stmts, none : ([] : List Hit') = hits at alone
  induction alone generalizing block with
  | done s l =>
      rw [List.map_eq_nil_iff.mp made]
      exact ⟨component.get s, .done _ l, (component.put_get s).symm⟩
  | hit interrupted later ih => cases none
  | @act stmt rest more s next s' l between l' hits acted later ih =>
      obtain ⟨item, others, split, first, remaining⟩ := List.map_eq_cons_iff.mp made
      rw [← first] at acted
      obtain ⟨value, morePart, actedPart, shared, left⟩ :=
        (component.act_iff item s next l between more).mp acted
      have joined : (morePart ++ others).map component.stmt = more ++ rest := by
        rw [List.map_append, left, remaining]
      obtain ⟨final, alonePart, same⟩ := ih joined none
      rw [shared, component.get_put] at alonePart
      rw [shared, component.put_put] at same
      rw [split]
      exact ⟨final, .act actedPart alonePart, same⟩

theorem Component.phases {invariant : Shared → Prop} {opening core closing : List Stmt}
    (phases : part.Phases invariant opening core closing) :
    whole.Phases (fun s => invariant (component.get s)) (opening.map component.stmt)
      (core.map component.stmt) (closing.map component.stmt) where
  opens := by
    obtain ⟨stmts, early, members⟩ := phases.opens
    refine ⟨_, component.early early, fun stmt' member => ?_⟩
    obtain ⟨item, inOpening, same⟩ := List.mem_map.mp member
    exact ⟨item, members item inOpening, same⟩
  shuts s l s' l' alone := by
    obtain ⟨value, alonePart, same⟩ := component.alone alone
    rw [same, component.get_put]
    exact phases.shuts _ l value l' alonePart
  works := by
    obtain ⟨stmts, late, members⟩ := phases.works
    refine ⟨_, component.late late, fun stmt' member => ?_⟩
    obtain ⟨item, inCore, same⟩ := List.mem_map.mp member
    exact ⟨item, members item inCore, same⟩
  closes := by
    obtain ⟨stmts, late, members⟩ := phases.closes
    refine ⟨_, component.late late, fun stmt' member => ?_⟩
    obtain ⟨item, inClosing, same⟩ := List.mem_map.mp member
    exact ⟨item, members item inClosing, same⟩

theorem Component.phased {block : List Stmt} (phased : part.Phased block) :
    whole.Phased (block.map component.stmt) := by
  obtain ⟨_, opening, core, closing, split, phases⟩ := phased
  refine ⟨_, _, _, _, ?_, component.phases phases⟩
  rw [split, List.map_append, List.map_append]

end Component

end WPerf.Library.Movers
