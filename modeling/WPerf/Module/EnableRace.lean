import WPerf.Module.Statements

/-!
# An enable write beside other operations

`enable_write_generic` releases `event_mutex` before it calls the operation of
the event, while filter writes and output reads hold it for their whole body.
So the statements of an enable write fall between any two statements of the
others. The probes end armed exactly as the event is enabled, unless the event
is disabled while an access has already tested the enabled flag.
-/

namespace WPerf.Module

open WPerf.Library
open WPerf.Library.Threads

set_option autoImplicit false

inductive EventName where
  | diskUtils
  | txStat
deriving DecidableEq, Repr

namespace EventName

def State : EventName → Type
  | diskUtils => DiskUtils
  | txStat => TxStat

def Probe : EventName → Type
  | diskUtils => Unit
  | txStat => SendProbe

instance (event : EventName) : DecidableEq event.Probe :=
  match event with
  | diskUtils => inferInstanceAs (DecidableEq Unit)
  | txStat => inferInstanceAs (DecidableEq SendProbe)

def panel (event : EventName) : Panel event.State event.Probe :=
  match event with
  | diskUtils => DiskUtils.panel
  | txStat => TxStat.panel

def takes : EventName → List Char → Bool
  | diskUtils => fitsRow
  | txStat => wellFormed

/-- An enable write on the left and a sequence of accesses on the right. -/
def race (event : EventName) (s : event.State) (locals : Side → Locals) (value : Bool)
    (accesses : List (Access event.takes)) : System event.panel Locals Fault :=
  match event with
  | diskUtils => DiskUtils.race s locals value accesses
  | txStat => TxStat.race s locals value accesses

end EventName

/-- At the end of any run of an enable write beside accepted filter writes and
output reads, the probes are armed exactly as the event is enabled if and only
if the enable write does not disable a probe while an access, the last one to
disable it, has found the event enabled and is still to enable that probe. -/
theorem enable_beside_accesses_iff (event : EventName) (s : event.State) (locals : Side → Locals)
    (value : Bool) (accesses : List (Access event.takes)) (schedule : List Side)
    (final : System event.panel Locals Fault)
    (ran : Runs.run System.step (event.race s locals value accesses) schedule = .ok final)
    (finished : final.Finished) :
    final.flag = value ∧
      ((∀ probe, final.isOn probe = final.flag) ↔
        ∀ pair ∈ Runs.steps System.step (event.race s locals value accesses) schedule,
          ∀ probe, ¬Disturbs probe pair) := by
  cases event with
  | diskUtils =>
      exact end_as_stored_iff [()] (List.nodup_singleton ())
        (fun probe => List.mem_singleton.mpr rfl) s locals value DiskUtils.resetTable
        (accesses.map DiskUtils.session) schedule final ran finished
  | txStat =>
      have : Nonempty SendProbe := ⟨.tcpSendmsg⟩
      exact end_as_stored_iff TxStat.probes (by decide) (fun probe => by cases probe <;> decide)
        s locals value [TxStat.zeroFilter] (accesses.map TxStat.session) schedule final ran finished

def turns (side : Side) (count : Nat) : List Side := List.replicate count side

def enabledDisks : DiskUtils := { DiskUtils.init with denabled := true, armed := true }

def enabledSends : TxStat := { TxStat.init with txEnabled := true, armed := fun _ => true }

theorem disabled_after_access :
    (∃ final, Runs.run System.step
          (enabledDisks.race (fun _ => .start) false [.outputRead])
          (turns .right 8 ++ turns .left 8) = .ok final ∧
        final.shared.armed = final.shared.denabled ∧
        ∀ pair ∈ Runs.steps System.step
          (enabledDisks.race (fun _ => .start) false [.outputRead])
          (turns .right 8 ++ turns .left 8), ∀ probe, ¬Disturbs probe pair) ∧
      ∃ final, Runs.run System.step
          (enabledSends.race (fun _ => .start) false [.filterWrite ⟨"42".toList, by decide⟩])
          (turns .right 14 ++ turns .left 10) = .ok final ∧
        (∀ probe, final.shared.armed probe = final.shared.txEnabled) ∧
        ∀ pair ∈ Runs.steps System.step
          (enabledSends.race (fun _ => .start) false [.filterWrite ⟨"42".toList, by decide⟩])
          (turns .right 14 ++ turns .left 10), ∀ probe, ¬Disturbs probe pair := by
  constructor
  · refine ⟨_, rfl, rfl, ?_⟩
    refine (enable_beside_accesses_iff .diskUtils _ _ _ _ _ _ rfl ?_).2.mp fun probe => rfl
    intro side
    cases side <;> rfl
  · have disarmed : ∀ final, Runs.run System.step
        (enabledSends.race (fun _ => .start) false [.filterWrite ⟨"42".toList, by decide⟩])
        (turns .right 14 ++ turns .left 10) = .ok final →
          ∀ probe, final.shared.armed probe = final.shared.txEnabled := by
      intro final ran probe
      rw [← Except.ok.inj ran]
      cases probe <;> rfl
    refine ⟨_, rfl, disarmed _ rfl, ?_⟩
    refine (enable_beside_accesses_iff .txStat _ _ _ _ _ _ rfl ?_).2.mp (disarmed _ rfl)
    intro side
    cases side <;> rfl

/-- An output read tests the flag, the event is disabled, and the output read
arms the probe. -/
theorem disabled_event_stays_armed :
    ∃ final, Runs.run System.step
        (enabledDisks.race (fun _ => .start) false [.outputRead])
        (turns .left 2 ++ turns .right 6 ++ turns .left 6 ++ turns .right 2) = .ok final ∧
      final.Finished ∧ final.shared.denabled = false ∧ final.shared.armed = true := by
  refine ⟨_, rfl, ?_, rfl, rfl⟩
  intro side
  cases side <;> rfl

end WPerf.Module
