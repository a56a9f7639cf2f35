import WPerf.Module.TxCounts

/-!
# The probes a send reaches

The five probes stand at two levels of the same calls and add to one counter. A
send through `sock_sendmsg` passes the probe there and the one of its protocol,
so its bytes are counted twice; a plain write or a sendpage passes one probe.
-/

namespace WPerf.Module

open WPerf.Library

set_option autoImplicit false

inductive Protocol where
  | tcp
  | udp
deriving DecidableEq, Repr

inductive SendPath where
  | sockSendmsg
  | write
  | sendpage
deriving DecidableEq, Repr

/-- The probed functions that the kernel calls for a send, each with its size. -/
def SendPath.probes : SendPath → Protocol → List SendProbe
  | sockSendmsg, .tcp => [.sockSendmsg, .tcpSendmsg]
  | sockSendmsg, .udp => [.sockSendmsg, .udpSendmsg]
  | write, .tcp => [.tcpSendmsg]
  | write, .udp => [.udpSendmsg]
  | sendpage, .tcp => [.tcpSendpage]
  | sendpage, .udp => [.udpSendpage]

structure Transmission where
  path : SendPath
  protocol : Protocol
  current : Pid
  size : UInt64
deriving DecidableEq, Repr

def TxOp.onFile : TxOp → Bool
  | .send _ _ _ => false
  | _ => true

/-- What goes on while the event is enabled: tasks send, and its files are read
and written. -/
inductive TxActivity where
  | transmit (transmission : Transmission)
  | operate (op : TxOp) (onFile : op.onFile = true)

def TxActivity.ops : TxActivity → List TxOp
  | transmit transmission => (transmission.path.probes transmission.protocol).map fun probe =>
      .send probe transmission.current transmission.size
  | operate op _ => [op]

def TxActivity.bytes (p : Pid) : TxActivity → Nat
  | transmit transmission => if transmission.current = p then transmission.size.toNat else 0
  | operate _ _ => 0

def TxActivity.sockBytes (p : Pid) : TxActivity → Nat
  | transmit transmission =>
      if transmission.current = p ∧ transmission.path = .sockSendmsg then transmission.size.toNat
      else 0
  | operate _ _ => 0

def transmitted (p : Pid) (activities : List TxActivity) : Nat :=
  (activities.map (TxActivity.bytes p)).sum

def throughSock (p : Pid) (activities : List TxActivity) : Nat :=
  (activities.map (TxActivity.sockBytes p)).sum

def TxOp.seen (p : Pid) : TxOp → UInt64
  | .send _ current size => if current = p then size else 0
  | _ => 0

namespace TxStat

/-- A pid is watched by an enabled event only with all probes armed. -/
def WatchedArmed (s : TxStat) : Prop :=
  ∀ p, s.txEnabled = true → s.filter p = true → ∀ probe, s.armed probe = true

theorem step_watched_armed (s : TxStat) (op : TxOp) (t : TxStat) (sound : s.WatchedArmed)
    (ran : s.step op = .ok t) : t.WatchedArmed := by
  have same : ∀ u : TxStat, (u.armed = fun _ => u.txEnabled) → u.WatchedArmed := by
    intro u armed p enabled _ probe
    rw [armed]
    exact enabled
  rw [s.step_moved t op ran]
  cases op with
  | writeEnable ubuf =>
      unfold moved
      dsimp only
      cases enableValue ubuf with
      | none => exact sound
      | some value => exact same _ rfl
  | writeFilter page dup ubuf =>
      unfold moved
      dsimp only
      split_ifs
      · unfold refiltered
        split_ifs
        · exact same _ rfl
        · intro p _ watched
          cases watched
      · exact sound
  | readOutput => exact same _ rfl
  | send probe current size => exact sound
  | readEnable => exact sound
  | readFilter => exact sound
  | writeOutput => exact sound

theorem reached_watched_armed {before : List TxOp} {s : TxStat}
    (reached : Runs.run step init before = .ok s) : s.WatchedArmed := by
  have start : init.WatchedArmed := fun p enabled => absurd enabled Bool.false_ne_true
  exact Runs.run_invariant
    (fun s op t (_ : True) held first => s.step_watched_armed op t held first) start
    (fun _ _ => trivial) reached

theorem run_counts (s t : TxStat) (sound : s.WatchedArmed) (ops : List TxOp)
    (ran : Runs.run step s ops = .ok t) (p : Pid)
    (watched : ∀ pair ∈ Runs.steps step s ops,
      pair.1.txEnabled = true ∧ pair.1.filter p = true) :
    (t.txStats p).toUInt64 = (s.txStats p).toUInt64 + (ops.map (TxOp.seen p)).sum := by
  induction ops generalizing s with
  | nil =>
      rw [← Except.ok.inj ran]
      simp
  | cons op rest ih =>
      obtain ⟨next, first, remaining⟩ := (Runs.run_cons_iff s t op rest).mp ran
      rw [Runs.steps_cons s next op rest first, List.forall_mem_cons] at watched
      obtain ⟨⟨enabled, own⟩, later⟩ := watched
      have counted : countedBytes p (s, op) = op.seen p := by
        unfold countedBytes
        rw [if_pos own]
        cases op with
        | send probe current size =>
            unfold sentBytes TxOp.seen
            dsimp only
            simp [sound p enabled own probe]
        | writeEnable ubuf => rfl
        | readEnable => rfl
        | writeFilter page dup ubuf => rfl
        | readFilter => rfl
        | writeOutput => rfl
        | readOutput => rfl
      rw [ih next (s.step_watched_armed op next sound first) remaining later,
        s.step_moved next op first, s.moved_bytes op p, counted, List.map_cons, List.sum_cons,
        UInt64.add_assoc]

end TxStat

/-- The probes see a send through `sock_sendmsg` twice and any other once. -/
theorem activity_seen (p : Pid) (activity : TxActivity) :
    ((activity.ops.map (TxOp.seen p)).map UInt64.toNat).sum =
      activity.bytes p + activity.sockBytes p := by
  cases activity with
  | operate op onFile =>
      cases op with
      | send probe current size => cases onFile
      | writeEnable ubuf => rfl
      | readEnable => rfl
      | writeFilter page dup ubuf => rfl
      | readFilter => rfl
      | writeOutput => rfl
      | readOutput => rfl
  | transmit transmission =>
      obtain ⟨path, protocol, current, size⟩ := transmission
      unfold TxActivity.ops TxActivity.bytes TxActivity.sockBytes
      dsimp only
      by_cases own : current = p
      · cases path with
        | sockSendmsg => cases protocol <;> simp [SendPath.probes, TxOp.seen, own]
        | write => cases protocol <;> simp [SendPath.probes, TxOp.seen, own]
        | sendpage => cases protocol <;> simp [SendPath.probes, TxOp.seen, own]
      · have none : ∀ probe, (TxOp.send probe current size).seen p = 0 := fun _ => if_neg own
        simp [own, Function.comp_def, none]

theorem activities_seen (p : Pid) (activities : List TxActivity) :
    (((activities.flatMap TxActivity.ops).map (TxOp.seen p)).map UInt64.toNat).sum =
      transmitted p activities + throughSock p activities := by
  unfold transmitted throughSock
  induction activities with
  | nil => rfl
  | cons activity rest ih =>
      rw [List.flatMap_cons, List.map_append, List.map_append, List.sum_append, ih,
        activity_seen p activity, List.map_cons, List.map_cons, List.sum_cons, List.sum_cons]
      omega

namespace TxStat

/-- In any run while the event is enabled and the pid watched, the counter of
the pid grows by exactly the bytes it sends if and only if none of them go
through `sock_sendmsg` (none in 64 bits) and the counter does not overflow. -/
theorem bytes_counted_once_iff (before : List TxOp) (during : List TxActivity) (s t : TxStat)
    (reached : Runs.run step init before = .ok s)
    (ran : Runs.run step s (during.flatMap TxActivity.ops) = .ok t) (p : Pid)
    (watched : ∀ pair ∈ Runs.steps step s (during.flatMap TxActivity.ops),
      pair.1.txEnabled = true ∧ pair.1.filter p = true) :
    (t.txStats p).toInt = (s.txStats p).toInt + transmitted p during ↔
      2 ^ 64 ∣ throughSock p during ∧
        (s.txStats p).toInt + transmitted p during < 2 ^ 63 := by
  have counts := run_counts s t (reached_watched_armed reached) _ ran p watched
  have sum := Word.toNat_sum ((during.flatMap TxActivity.ops).map (TxOp.seen p))
  rw [activities_seen] at sum
  exact Word.counter_grown_iff _ _ _ _ _ counts sum

def watching : List TxOp := [watchSeven, .writeEnable "1\n".toList]

def sevenSends (path : SendPath) : TxActivity := .transmit ⟨path, .tcp, seven, 100⟩

theorem watching_runs :
    ∃ s, Runs.run step init watching = .ok s ∧ s.txEnabled = true ∧ s.filter seven = true ∧
      s.txStats seven = 0 := by
  have facts : (Runs.run step init watching).map (fun s =>
      (s.txEnabled, s.filter seven, s.txStats seven)) = .ok (true, true, 0) := by decide
  obtain ⟨s, ran, same⟩ := (Fallible.map_eq_ok_iff _ _ _).mp facts
  simp only [Prod.mk.injEq] at same
  exact ⟨s, ran, same⟩

theorem plain_write_counted_once :
    ∃ s t, Runs.run step init watching = .ok s ∧
      Runs.run step s ([sevenSends .write].flatMap TxActivity.ops) = .ok t ∧
      (∀ pair ∈ Runs.steps step s ([sevenSends .write].flatMap TxActivity.ops),
        pair.1.txEnabled = true ∧ pair.1.filter seven = true) ∧
      ((t.txStats seven).toInt = (s.txStats seven).toInt + transmitted seven [sevenSends .write] ↔
        2 ^ 64 ∣ throughSock seven [sevenSends .write] ∧
          (s.txStats seven).toInt + transmitted seven [sevenSends .write] < 2 ^ 63) := by
  obtain ⟨s, reached, enabled, own, _⟩ := watching_runs
  have watched : ∀ pair ∈ Runs.steps step s ([sevenSends .write].flatMap TxActivity.ops),
      pair.1.txEnabled = true ∧ pair.1.filter seven = true := by
    intro pair member
    rw [List.mem_singleton.mp member]
    exact ⟨enabled, own⟩
  exact ⟨s, _, reached, rfl, watched,
    bytes_counted_once_iff watching [sevenSends .write] s _ reached rfl seven watched⟩

theorem socket_send_counted_twice :
    ∃ s t, Runs.run step init watching = .ok s ∧
      Runs.run step s ([sevenSends .sockSendmsg].flatMap TxActivity.ops) = .ok t ∧
      (∀ pair ∈ Runs.steps step s ([sevenSends .sockSendmsg].flatMap TxActivity.ops),
        pair.1.txEnabled = true ∧ pair.1.filter seven = true) ∧
      (s.txStats seven).toInt = 0 ∧ transmitted seven [sevenSends .sockSendmsg] = 100 ∧
      (t.txStats seven).toInt = 200 := by
  obtain ⟨s, reached, enabled, own, zero⟩ := watching_runs
  have watched : ∀ pair ∈ Runs.steps step s ([sevenSends .sockSendmsg].flatMap TxActivity.ops),
      pair.1.txEnabled = true ∧ pair.1.filter seven = true := by
    intro pair member
    rcases List.mem_cons.mp member with first | second
    · rw [first]
      exact ⟨enabled, own⟩
    · rw [List.mem_singleton.mp second]
      dsimp only
      rw [s.send_eq]
      exact ⟨enabled, own⟩
  obtain ⟨t, ran⟩ : ∃ t, Runs.run step s ([sevenSends .sockSendmsg].flatMap TxActivity.ops) =
      .ok t := ⟨_, rfl⟩
  have counts := run_counts s t (reached_watched_armed reached) _ ran seven watched
  rw [zero] at counts
  refine ⟨s, t, reached, ran, watched, ?_, by decide, ?_⟩
  · rw [zero]
    rfl
  · rw [Word.toInt_eq_bmod, counts]
    decide

end TxStat

end WPerf.Module
