import WPerf.Analyzer.Accounting

/-!
# Who a wait is charged to

`BreakIntoSegments` writes the waker of a wait into one integer: a pid for a
wakeup made in process context, minus the context number for any other one.
`addWeight` looks that integer up among the thread names, and no thread is
called by minus a context number. A wait ended by an interrupt therefore adds
to no edge, and one ended from context 0 adds to an edge of thread 0.
-/

namespace WPerf.Analyzer

open WPerf.Library

set_option autoImplicit false

inductive Waker where
  | thread (pid : Int64)
  | interrupt (context : Int64)
deriving DecidableEq, Repr

def Switch.waker (wake : Switch) : Waker :=
  if wake.inWhichCtx = process then .thread wake.prevPid else .interrupt wake.inWhichCtx

def Switch.PlainWaker (wake : Switch) : Prop := wake.inWhichCtx = process → 0 ≤ wake.prevPid

def WaitEndedBy (pl : List Int64) (swl : List Switch) (g : Globals) (w : Segment)
    (wake : Switch) : Prop :=
  w.pid ∈ pl ∧ (∃ segs, getSegments g w.pid = some segs ∧ w ∈ segs.list) ∧
    ∃ front out back, swl = front ++ wake :: back ∧ WaitsSince w.pid out front ∧
      wake.Wakes w.pid ∧ w = ⟨w.pid, .blocked, out.time, wake.time, wakerOf wake⟩

/-- `Cascade` charges the segment to the edge from its thread to `target`: the
call of `addWeight` adds the duration there and nothing else, whatever the
graph holds, and a run that returns leaves the graph so. -/
structure ChargedTo (g : Globals) (w : Segment) (target : String) : Prop where
  adds : ∀ graph, (charge (g.withGraph graph) w).waitForGraph =
    Tally.add (edgeKey (getComm g w.pid) target) w.duration graph
  kept : ∀ fuel graph g', cascade fuel (g.withGraph graph) w = .ok g' →
    g'.waitForGraph = Tally.add (edgeKey (getComm g w.pid) target) w.duration graph

/-- The target tells who made the wakeup: the thread's own name, or for an
interrupt something that names no thread. -/
structure Identifies (swl : List Switch) (wake : Switch) (target : String) : Prop where
  thread : wake.inWhichCtx = process → target = commOf swl wake.prevPid
  interrupt : wake.inWhichCtx ≠ process → ∀ pid, commOf swl pid ≠ target

theorem edge_key_left_cancel (name a b : String) : edgeKey name a = edgeKey name b ↔ a = b := by
  constructor
  · intro same
    have chars := congrArg String.toList same
    rw [edge_key_chars, edge_key_chars] at chars
    have trimmed := List.append_cancel_right (List.cons.inj (List.append_cancel_left chars)).2
    exact String.toList_inj.mp trimmed
  · intro same
    rw [same]

theorem add_to_empty_inj (a b : String) (weight : UInt64) :
    Tally.add a weight ∅ = Tally.add b weight ∅ ↔ a = b := by
  constructor
  · intro same
    by_contra different
    have entry := congrArg (Finmap.lookup a) same
    unfold Tally.add at entry
    rw [Finmap.lookup_insert, Finmap.lookup_insert_of_ne _ different] at entry
    simp at entry
  · intro same
    rw [same]

theorem charged_to_iff (g : Globals) (w : Segment) (blocked : w.state = .blocked)
    (target : String) :
    ChargedTo g w target ↔
      getComm g w.pid ≠ "" ∧ getComm g w.waitFor ≠ "" ∧ getComm g w.waitFor = target := by
  have call : ∀ graph, (charge (g.withGraph graph) w).waitForGraph =
      Tally.addItem (edgeOf g) Segment.duration graph w := by
    intro graph
    rw [charge_tally]
    rfl
  constructor
  · intro charged
    have fromNothing := charged.adds ∅
    rw [call] at fromNothing
    unfold Tally.addItem edgeOf at fromNothing
    by_cases nameless : getComm g w.pid = "" ∨ getComm g w.waitFor = ""
    · rw [if_pos nameless] at fromNothing
      have entry := congrArg (Finmap.lookup (edgeKey (getComm g w.pid) target)) fromNothing
      unfold Tally.add at entry
      rw [Finmap.lookup_insert] at entry
      simp at entry
    · rw [if_neg nameless] at fromNothing
      have sameKey := (add_to_empty_inj _ _ _).mp fromNothing
      rw [not_or] at nameless
      exact ⟨nameless.1, nameless.2, (edge_key_left_cancel _ _ _).mp sameKey⟩
  · intro ⟨waiterNamed, wakerNamed, same⟩
    have adds : ∀ graph, (charge (g.withGraph graph) w).waitForGraph =
        Tally.add (edgeKey (getComm g w.pid) target) w.duration graph := by
      intro graph
      rw [call]
      unfold Tally.addItem edgeOf
      rw [if_neg (not_or.mpr ⟨waiterNamed, wakerNamed⟩), same]
    apply ChargedTo.mk adds
    intro fuel graph g' run
    cases fuel with
    | zero => cases run
    | succ fuel =>
        rcases (cascade_eq_ok_iff fuel _ w g').mp run with ⟨awake, _⟩ | ⟨_, _, result⟩
        · exact absurd blocked awake
        · rw [← result]
          exact adds graph

theorem charged_to_author_iff {pl : List Int64} {swl : List Switch} {sl : List Soft}
    {g : Globals} (prepared : Prepared pl swl sl g) (w : Segment) (wake : Switch)
    (named : commOf swl w.pid ≠ "") (ended : WaitEndedBy pl swl g w wake) :
    (∃ target, ChargedTo g w target ∧ Identifies swl wake target) ↔
      wake.inWhichCtx = process ∧ commOf swl wake.prevPid ≠ "" := by
  obtain ⟨_, _, front, out, back, _, _, _, recorded⟩ := ended
  have blocked : w.state = .blocked := by
    rw [recorded]
  have waitFor : w.waitFor = wakerOf wake := by
    rw [recorded]
  have waiter : getComm g w.pid = commOf swl w.pid := prepared.names w.pid
  have waker : getComm g w.waitFor = commOf swl (wakerOf wake) := by
    rw [waitFor]
    exact prepared.names _
  constructor
  · intro ⟨target, charged, tells⟩
    obtain ⟨_, wakerNamed, same⟩ := (charged_to_iff g w blocked target).mp charged
    rw [waker] at wakerNamed same
    by_cases inProcess : wake.inWhichCtx = process
    · rw [wakerOf, if_pos inProcess] at wakerNamed
      exact ⟨inProcess, wakerNamed⟩
    · exact absurd same (tells.interrupt inProcess _)
  · intro ⟨inProcess, wakerNamed⟩
    have byThread : wakerOf wake = wake.prevPid := if_pos inProcess
    rw [byThread] at waker
    refine ⟨commOf swl wake.prevPid, ?_, ?_⟩
    · apply (charged_to_iff g w blocked _).mpr
      rw [waiter, waker]
      exact ⟨named, wakerNamed, rfl⟩
    · exact ⟨fun _ => rfl, fun elsewhere => absurd inProcess elsewhere⟩

/-- Two authors share an id exactly when one is a thread and the other the
interrupt numbered minus its pid. -/
theorem waker_ids_apart_iff (wake other : Switch) (inProcess : wake.inWhichCtx = process) :
    (other.waker ≠ wake.waker → wakerOf other ≠ wakerOf wake) ↔
      (other.inWhichCtx ≠ process → other.inWhichCtx ≠ -wake.prevPid) := by
  have author : wake.waker = .thread wake.prevPid := if_pos inProcess
  have id : wakerOf wake = wake.prevPid := if_pos inProcess
  rw [author, id]
  by_cases otherProcess : other.inWhichCtx = process
  · have otherAuthor : other.waker = .thread other.prevPid := if_pos otherProcess
    have otherId : wakerOf other = other.prevPid := if_pos otherProcess
    rw [otherAuthor, otherId]
    constructor
    · intro _ elsewhere
      exact absurd otherProcess elsewhere
    · intro _ different same
      rw [same] at different
      exact different rfl
  · have otherAuthor : other.waker = .interrupt other.inWhichCtx := if_neg otherProcess
    have otherId : wakerOf other = -other.inWhichCtx := if_neg otherProcess
    rw [otherAuthor, otherId]
    constructor
    · intro apart _ same
      apply apart (by intro equal; cases equal)
      rw [same, Int64.neg_neg]
    · intro apart _ same
      apply apart otherProcess
      rw [← same, Int64.neg_neg]

/-- A wait is charged to the waker that ended it, under an id no other waker
has, exactly when the wakeup was made in process context by a thread with a
name and no other wait was ended from the context numbered minus its pid. -/
theorem wait_charged_to_waker_iff (pl : List Int64) (swl : List Switch) (sl : List Soft)
    (g : Globals) (run : cutThreads pl pl swl sl = .ok g) (w : Segment) (wake : Switch)
    (named : commOf swl w.pid ≠ "") (ended : WaitEndedBy pl swl g w wake) :
    ((∃ target, ChargedTo g w target ∧ Identifies swl wake target) ∧
        ∀ w' other, WaitEndedBy pl swl g w' other → wake.PlainWaker → other.PlainWaker →
          other.waker ≠ wake.waker → w'.waitFor ≠ w.waitFor) ↔
      wake.inWhichCtx = process ∧ commOf swl wake.prevPid ≠ "" ∧
        (0 ≤ wake.prevPid → ∀ w' other, WaitEndedBy pl swl g w' other →
          other.inWhichCtx ≠ process → other.inWhichCtx ≠ -wake.prevPid) := by
  obtain ⟨_, segmented, _⟩ := cut_threads_spec (fun _ listed => listed) run
  have stored : ∀ w' other, WaitEndedBy pl swl g w' other → w'.waitFor = wakerOf other := by
    intro w' other isEnded
    obtain ⟨_, _, _, _, _, _, _, _, recorded⟩ := isEnded
    rw [recorded]
  rw [charged_to_author_iff segmented.prepared w wake named ended, stored w wake ended, and_assoc]
  apply and_congr_right
  intro inProcess
  apply and_congr_right
  intro _
  constructor
  · intro apart pidPlain w' other otherEnded elsewhere
    have plain : wake.PlainWaker := fun _ => pidPlain
    have otherPlain : other.PlainWaker := fun same => absurd same elsewhere
    have ids := apart w' other otherEnded plain otherPlain
    rw [stored w' other otherEnded] at ids
    exact (waker_ids_apart_iff wake other inProcess).mp ids elsewhere
  · intro apart w' other otherEnded plain _
    rw [stored w' other otherEnded]
    apply (waker_ids_apart_iff wake other inProcess).mpr
    exact apart (plain inProcess) w' other otherEnded

def webNames : Int64 → String := fun pid =>
  if pid = 0 then "swapper" else if pid = 1 then "web" else "database"

/-- Wakeups of the web server: by received packets (softirq 3), by a tasklet
(softirq 0), and by the database. -/
def packetWake : Switch := { lifeEvent webNames 1 1 20 0 1 with inWhichCtx := 3 }

def taskletWake : Switch := { lifeEvent webNames 1 1 50 2 1 with inWhichCtx := 0 }

def databaseWake : Switch := lifeEvent webNames 1 1 80 2 1

def webTrace : List Switch :=
  [switchTo webNames 0 10 1 1 0, packetWake, switchTo webNames 0 30 0 0 1,
    switchTo webNames 0 40 1 1 0, taskletWake, switchTo webNames 0 60 0 0 1,
    switchTo webNames 0 70 1 1 0, databaseWake]

theorem web_waits (g : Globals) (run : cutThreads [1] [1] webTrace [] = .ok g) :
    WaitEndedBy [1] webTrace g ⟨1, .blocked, 10, 20, -3⟩ packetWake ∧
      WaitEndedBy [1] webTrace g ⟨1, .blocked, 40, 50, 0⟩ taskletWake ∧
      WaitEndedBy [1] webTrace g ⟨1, .blocked, 70, 80, 2⟩ databaseWake := by
  obtain ⟨_, segmented, _⟩ := cut_threads_spec (fun _ listed => listed) run
  obtain ⟨segs, cut, found⟩ := segmented.cut 1 (by decide)
  have same : (threadSegments [] webTrace 1).toOption = some segs := by
    rw [cut]
    rfl
  have stored : ∀ w, (threadSegments [] webTrace 1).toOption.any (fun segs => w ∈ segs.list) →
      w ∈ segs.list := by
    intro w member
    rw [same] at member
    simpa using member
  have since : ∀ (place : Nat) (out wake : Switch) (w : Segment),
      webTrace.take place ++ wake :: webTrace.drop (place + 1) = webTrace →
      webTrace.take (place - 1) ++ [out] = webTrace.take place →
      out.SwitchesOut 1 → out.prevState ≠ 0 → wake.Wakes 1 →
      w = ⟨1, .blocked, out.time, wake.time, wakerOf wake⟩ →
      (threadSegments [] webTrace 1).toOption.any (fun segs => w ∈ segs.list) →
      WaitEndedBy [1] webTrace g w wake := by
    intro place out wake w split last switches stopped wakes recorded member
    subst recorded
    refine ⟨List.mem_cons_self, ⟨segs, found, stored _ member⟩, webTrace.take place, out,
      webTrace.drop (place + 1), split.symm, ?_, wakes, rfl⟩
    refine ⟨webTrace.take (place - 1), [], last.symm, switches, stopped, ?_⟩
    intro event inNone
    exact absurd inNone List.not_mem_nil
  exact ⟨since 1 webTrace[0] packetWake _ rfl rfl (by decide) (by decide) (by decide) rfl (by decide),
    since 4 webTrace[3] taskletWake _ rfl rfl (by decide) (by decide) (by decide) rfl (by decide),
    since 7 webTrace[6] databaseWake _ rfl rfl (by decide) (by decide) (by decide) rfl (by decide)⟩

theorem database_wait_charged :
    ∃ g, cutThreads [1] [1] webTrace [] = .ok g ∧
      (((∃ target, ChargedTo g ⟨1, .blocked, 70, 80, 2⟩ target ∧
            Identifies webTrace databaseWake target) ∧
          ∀ w' other, WaitEndedBy [1] webTrace g w' other → databaseWake.PlainWaker →
            other.PlainWaker → other.waker ≠ databaseWake.waker → w'.waitFor ≠ 2) ↔
        databaseWake.inWhichCtx = process ∧ commOf webTrace databaseWake.prevPid ≠ "" ∧
          (0 ≤ databaseWake.prevPid → ∀ w' other, WaitEndedBy [1] webTrace g w' other →
            other.inWhichCtx ≠ process → other.inWhichCtx ≠ -databaseWake.prevPid)) := by
  obtain ⟨g, run⟩ : ∃ g, cutThreads [1] [1] webTrace [] = .ok g := ⟨_, rfl⟩
  exact ⟨g, run, wait_charged_to_waker_iff [1] webTrace [] g run ⟨1, .blocked, 70, 80, 2⟩
    databaseWake (by decide) (web_waits g run).2.2⟩

theorem interrupt_waits_not_charged :
    TimeSorted webTrace ∧
      ∃ g, cutThreads [1] [1] webTrace [] = .ok g ∧ commOf webTrace 1 ≠ "" ∧
        (WaitEndedBy [1] webTrace g ⟨1, .blocked, 10, 20, -3⟩ packetWake ∧
          ∀ target, ¬ChargedTo g ⟨1, .blocked, 10, 20, -3⟩ target) ∧
        WaitEndedBy [1] webTrace g ⟨1, .blocked, 40, 50, 0⟩ taskletWake ∧
          taskletWake.inWhichCtx ≠ process ∧
          ChargedTo g ⟨1, .blocked, 40, 50, 0⟩ (commOf webTrace 0) := by
  obtain ⟨g, run⟩ : ∃ g, cutThreads [1] [1] webTrace [] = .ok g := ⟨_, rfl⟩
  obtain ⟨_, segmented, _⟩ := cut_threads_spec (fun _ listed => listed) run
  have name : ∀ pid, getComm g pid = commOf webTrace pid := segmented.prepared.names
  obtain ⟨packets, tasklet, _⟩ := web_waits g run
  refine ⟨by decide, g, run, by decide, ⟨packets, ?_⟩, tasklet, by decide, ?_⟩
  · intro target charged
    have wakerNamed := ((charged_to_iff g _ rfl target).mp charged).2.1
    rw [name] at wakerNamed
    exact wakerNamed (by decide)
  · apply (charged_to_iff g _ rfl _).mpr
    rw [name, name]
    exact ⟨by decide, by decide, rfl⟩

end WPerf.Analyzer
