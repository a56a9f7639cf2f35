import WPerf.Module.DiskTable
import WPerf.Module.PidFilter

/-!
# Probes armed as the events are enabled

Both events of the module as one machine. An operation that finds every probe
armed exactly if its event is enabled leaves them so, unless it is a filter
write that is rejected while its event is enabled: the error returns of the
two token loops do not arm the probes again.
-/

namespace WPerf.Module

open WPerf.Library

set_option autoImplicit false

structure Events where
  disk : DiskUtils
  tx : TxStat

inductive EventOp where
  | disk (op : DiskOp)
  | tx (op : TxOp)
deriving DecidableEq, Repr

def EventOp.InBounds : EventOp → Prop
  | .disk op => op.InBounds
  | .tx op => op.InBounds

namespace Events

def init : Events := ⟨.init, .init⟩

def step (s : Events) : EventOp → Except Fault Events
  | .disk op => (s.disk.step op).map fun disk => { s with disk := disk }
  | .tx op => (s.tx.step op).map fun tx => { s with tx := tx }

structure ArmedIffEnabled (s : Events) : Prop where
  disk : s.disk.armed = s.disk.denabled
  tx : ∀ probe, s.tx.armed probe = s.tx.txEnabled

/-- A filter write that reaches its token loop is accepted or finds its event
disabled. -/
def Keeps (s : Events) : EventOp → Prop
  | .disk (.writeFilter page dup ubuf) =>
      ubuf.length < pageSize ∧ page ∧ dup → s.disk.denabled = true →
        (filterTokens (cString ubuf)).all fitsRow = true
  | .tx (.writeFilter page dup ubuf) =>
      ubuf.length < pageSize ∧ page ∧ dup → s.tx.txEnabled = true →
        (filterTokens (cString ubuf)).all wellFormed = true
  | _ => True

theorem step_ok_iff (s : Events) (op : EventOp) (sound : s.disk.Sound) :
    (∃ t, s.step op = .ok t) ↔ op.InBounds := by
  cases op with
  | disk op =>
      rw [show EventOp.InBounds (.disk op) = op.InBounds from rfl, ← s.disk.step_ok_iff op sound]
      constructor
      · intro ⟨t, ran⟩
        obtain ⟨disk, first, _⟩ := (Fallible.map_eq_ok_iff _ _ _).mp ran
        exact ⟨disk, first⟩
      · intro ⟨disk, first⟩
        exact ⟨_, (Fallible.map_eq_ok_iff _ _ _).mpr ⟨disk, first, rfl⟩⟩
  | tx op =>
      rw [show EventOp.InBounds (.tx op) = op.InBounds from rfl, ← s.tx.step_ok_iff op]
      constructor
      · intro ⟨t, ran⟩
        obtain ⟨tx, first, _⟩ := (Fallible.map_eq_ok_iff _ _ _).mp ran
        exact ⟨tx, first⟩
      · intro ⟨tx, first⟩
        exact ⟨_, (Fallible.map_eq_ok_iff _ _ _).mpr ⟨tx, first, rfl⟩⟩

theorem step_sound (s : Events) (op : EventOp) (t : Events) (sound : s.disk.Sound)
    (ran : s.step op = .ok t) : t.disk.Sound := by
  cases op with
  | disk op =>
      obtain ⟨disk, first, same⟩ := (Fallible.map_eq_ok_iff _ _ _).mp ran
      rw [← same]
      exact s.disk.step_sound op disk sound first
  | tx op =>
      obtain ⟨tx, first, same⟩ := (Fallible.map_eq_ok_iff _ _ _).mp ran
      rw [← same]
      exact sound

theorem disk_step_keeps (s t : DiskUtils) (op : DiskOp) (sound : s.Sound)
    (armed : s.armed = s.denabled) (ran : s.step op = .ok t) (tx : TxStat) :
    t.armed = t.denabled ↔ Keeps ⟨s, tx⟩ (.disk op) := by
  have moves := (s.step_cases op t sound ran).2
  have same : t = s → t.armed = t.denabled := by
    intro equal
    rw [equal]
    exact armed
  cases op with
  | writeEnable ubuf =>
      apply iff_of_true _ trivial
      unfold DiskUtils.Moves at moves
      dsimp only at moves
      cases value : enableValue ubuf with
      | none =>
          rw [value] at moves
          exact same moves
      | some value' =>
          rw [value] at moves
          exact moves.armed.trans moves.denabled.symm
  | readEnable => exact iff_of_true (same moves) trivial
  | writeFilter page dup ubuf =>
      unfold DiskUtils.Moves at moves
      unfold Keeps
      dsimp only at moves ⊢
      split_ifs at moves with reached
      · rw [moves.armed, moves.denabled]
        cases s.denabled with
        | false => simp
        | true => simp [reached]
      · exact iff_of_true (same moves) fun all => absurd all reached
  | readFilter => exact iff_of_true (same moves) trivial
  | writeOutput => exact iff_of_true (same moves) trivial
  | readOutput =>
      have rearmed : t = { s with armed := s.denabled } := moves
      apply iff_of_true _ trivial
      rw [rearmed]
  | hit hit =>
      apply iff_of_true _ trivial
      unfold DiskUtils.Moves at moves
      dsimp only at moves
      split_ifs at moves with hot
      · exact moves.armed.trans (armed.trans moves.denabled.symm)
      · exact same moves

theorem tx_step_keeps (s t : TxStat) (op : TxOp) (armed : ∀ probe, s.armed probe = s.txEnabled)
    (ran : s.step op = .ok t) (disk : DiskUtils) :
    (∀ probe, t.armed probe = t.txEnabled) ↔ Keeps ⟨disk, s⟩ (.tx op) := by
  rw [s.step_moved t op ran]
  cases op with
  | writeEnable ubuf =>
      apply iff_of_true _ trivial
      unfold TxStat.moved
      dsimp only
      cases enableValue ubuf with
      | none => exact armed
      | some value => exact fun probe => rfl
  | readEnable => exact iff_of_true armed trivial
  | writeFilter page dup ubuf =>
      unfold TxStat.moved Keeps
      dsimp only
      split_ifs with reached
      · unfold TxStat.refiltered
        split_ifs with fit
        · exact iff_of_true (fun probe => rfl) fun _ _ => fit
        · cases enabled : s.txEnabled with
          | false => exact iff_of_true (fun probe => rfl) fun _ never => absurd never (by decide)
          | true =>
              constructor
              · intro kept
                cases kept .tcpSendmsg
              · exact fun accepted => absurd (accepted reached rfl) fit
      · exact iff_of_true armed fun all => absurd all reached
  | readFilter => exact iff_of_true armed trivial
  | writeOutput => exact iff_of_true armed trivial
  | readOutput => exact iff_of_true (fun probe => rfl) trivial
  | send probe current size => exact iff_of_true armed trivial

theorem step_keeps (s : Events) (op : EventOp) (t : Events) (sound : s.disk.Sound)
    (armed : s.ArmedIffEnabled) (ran : s.step op = .ok t) :
    t.ArmedIffEnabled ↔ s.Keeps op := by
  cases op with
  | disk op =>
      obtain ⟨disk, first, same⟩ := (Fallible.map_eq_ok_iff _ _ _).mp ran
      rw [← disk_step_keeps s.disk disk op sound armed.disk first s.tx, ← same]
      exact ⟨fun kept => kept.disk, fun kept => ⟨kept, armed.tx⟩⟩
  | tx op =>
      obtain ⟨tx, first, same⟩ := (Fallible.map_eq_ok_iff _ _ _).mp ran
      rw [← tx_step_keeps s.tx tx op armed.tx first s.disk, ← same]
      exact ⟨fun kept => kept.tx, fun kept => ⟨armed.disk, kept⟩⟩

/-- After every operation of a run the probes are armed exactly as the events
are enabled, if and only if no filter write of the run is rejected by its token
loop while its event is enabled. A run within the tables visits a state after
every operation. -/
theorem armed_iff_enabled_iff (ops : List EventOp) :
    ((∀ op ∈ ops, op.InBounds) → (Runs.visited step init ops).length = ops.length) ∧
      ((∀ s ∈ Runs.visited step init ops, s.ArmedIffEnabled) ↔
        ∀ pair ∈ Runs.steps step init ops, pair.1.Keeps pair.2) := by
  have sound : init.disk.Sound := DiskUtils.init_sound
  have kept : ∀ s op t, s.disk.Sound → step s op = .ok t → t.disk.Sound := step_sound
  constructor
  · intro inBounds
    have ran := (Runs.run_ok_iff EventOp.InBounds step_ok_iff kept init sound ops).mpr inBounds
    obtain ⟨final, ran⟩ := ran
    exact Runs.visited_length init final ops ran
  · exact Runs.visited_all_iff kept ArmedIffEnabled Keeps step_keeps init sound
      ⟨rfl, fun probe => rfl⟩ ops

theorem rejected_name_disarms :
    ∃ s ∈ Runs.visited step init [.disk (.writeEnable "1\n".toList),
        .disk (.writeFilter true true (List.replicate 20 'a'))],
      s.disk.denabled = true ∧ s.disk.armed = false := by
  have found : (Runs.visited step init [.disk (.writeEnable "1\n".toList),
      .disk (.writeFilter true true (List.replicate 20 'a'))]).any
        (fun s => s.disk.denabled && !s.disk.armed) = true := by
    decide
  obtain ⟨s, member, broken⟩ := List.any_eq_true.mp found
  exact ⟨s, member, by simpa using broken⟩

end Events

end WPerf.Module
