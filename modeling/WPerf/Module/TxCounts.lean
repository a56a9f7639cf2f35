import WPerf.Module.PidFilter

/-!
# What the transmit counters stand for

The bit of a pid says whether its sends are counted, and nothing ever resets
its counter. While the bit stays set, the counter grows by the bytes the pid
passes to armed probes; it started from what the filter write found.
-/

namespace WPerf.Module

open WPerf.Library

set_option autoImplicit false

def isPid (token : List Char) : Bool :=
  match kstrtoul token with
  | .ok pid => decide (pid.toNat < pidMaxLimit)
  | .error _ => false

/-- A filter text reaches the token loop and all its tokens are pids. -/
def TxOp.Accepted : TxOp → Prop
  | .writeFilter page dup ubuf =>
      (ubuf.length < pageSize ∧ page ∧ dup) ∧ (filterTokens (cString ubuf)).all isPid
  | _ => True

theorem in_range_of_pid (token : List Char) (pid : isPid token = true) : inRange token = true := by
  unfold isPid at pid
  unfold inRange
  cases number : kstrtoul token with
  | error errno =>
      rw [number] at pid
      cases pid
  | ok value =>
      rw [number] at pid
      have small : value.toNat < pidMaxLimit := of_decide_eq_true pid
      apply decide_eq_true
      rw [UInt64.toNat_toUInt32]
      exact Nat.lt_of_le_of_lt (Nat.mod_le _ _) small

theorem TxOp.Accepted.inBounds {op : TxOp} (accepted : op.Accepted) : op.InBounds := by
  cases op with
  | writeFilter page dup ubuf =>
      intro _ token member
      have inText := (List.takeWhile_sublist wellFormed).subset member
      exact in_range_of_pid token (List.all_eq_true.mp accepted.2 token inText)
  | writeEnable ubuf => trivial
  | readEnable => trivial
  | readFilter => trivial
  | writeOutput => trivial
  | readOutput => trivial
  | send probe current size => trivial

namespace TxStat

/-- The operations that turn the bit of a pid from clear to set. -/
def turnsOn (p : Pid) (pair : TxStat × TxOp) : Bool :=
  match pair.1.step pair.2 with
  | .ok next => !pair.1.filter p && next.filter p
  | .error _ => false

/-- The bytes a pid passes to an armed probe. -/
def sentBytes (p : Pid) (pair : TxStat × TxOp) : UInt64 :=
  match pair.2 with
  | .send probe current size => if pair.1.armed probe ∧ current = p then size else 0
  | _ => 0

def sentSince (p : Pid) (ops : List TxOp) : Nat :=
  ((Runs.session step (turnsOn p) init ops).map fun pair => (sentBytes p pair).toNat).sum

def countedBytes (p : Pid) (pair : TxStat × TxOp) : UInt64 :=
  if pair.1.filter p then sentBytes p pair else 0

theorem moved_bytes (s : TxStat) (op : TxOp) (p : Pid) :
    ((s.moved op).txStats p).toUInt64 = (s.txStats p).toUInt64 + countedBytes p (s, op) := by
  have idle : ∀ t : TxStat, t.txStats = s.txStats → sentBytes p (s, op) = 0 →
      (t.txStats p).toUInt64 = (s.txStats p).toUInt64 + countedBytes p (s, op) := by
    intro t same nothing
    unfold countedBytes
    rw [same, nothing, ite_self, UInt64.add_zero]
  cases op with
  | writeEnable ubuf =>
      unfold moved
      dsimp only
      cases enableValue ubuf with
      | none => exact idle s rfl rfl
      | some value => exact idle _ rfl rfl
  | writeFilter page dup ubuf =>
      unfold moved
      dsimp only
      split_ifs with reached
      · unfold refiltered
        split_ifs with fit
        · exact idle _ rfl rfl
        · exact idle _ rfl rfl
      · exact idle s rfl rfl
  | readOutput => exact idle _ rfl rfl
  | send probe current size =>
      unfold moved sent countedBytes sentBytes
      dsimp only
      by_cases here : p = current
      · rw [here]
        cases s.armed probe with
        | false => simp
        | true =>
            cases s.filter current with
            | false => simp
            | true => simp
      · have other : current ≠ p := fun same => here same.symm
        simp [here, other]
  | readEnable => exact idle s rfl rfl
  | readFilter => exact idle s rfl rfl
  | writeOutput => exact idle s rfl rfl

section Run

variable {ops : List TxOp} {final : TxStat} (ran : Runs.run step init ops = .ok final)

include ran

theorem session_watched (p : Pid) (watched : final.filter p = true) :
    ∀ pair ∈ Runs.session step (turnsOn p) init ops, pair.1.filter p = true := by
  refine (Runs.session_back (fun s op t _ _ _ => trivial) trivial (fun op _ => trivial) ran
    (fun s => s.filter p = true) ?_ watched).2
  intro s op t _ _ goesOn first held
  unfold turnsOn at goesOn
  rw [first] at goesOn
  cases before : s.filter p with
  | true => rfl
  | false =>
      dsimp only at goesOn
      rw [before, held] at goesOn
      cases goesOn

theorem bytes_exact_iff (p : Pid) (watched : final.filter p = true) :
    (final.txStats p).toInt = sentSince p ops ↔
      (Runs.sessionStart step (turnsOn p) init ops final).txStats p = 0 ∧
        sentSince p ops < 2 ^ 63 := by
  apply Runs.session_counter_iff (fun s op t _ _ _ => trivial) trivial (fun op _ => trivial) ran
    (fun s => s.txStats p) (countedBytes p) (sentBytes p)
  · intro s op t _ _ _ first
    rw [s.step_moved t op first]
    exact s.moved_bytes op p
  · intro pair member
    unfold countedBytes
    rw [session_watched ran p watched pair member, if_pos rfl]

end Run

/-- In every run with accepted filter writes, the output lists the watched pids
with their counters, and the number next to a pid is what it has sent since its
bit was last turned on exactly when its counter was zero then and the bytes fit
in a `long`. -/
theorem sent_from_zero_iff (ops : List TxOp) (accepted : ∀ op ∈ ops, op.Accepted) :
    ∃ final seq, Runs.run step init ops = .ok final ∧
      endList (final.setBits.map final.entry) .empty = .ok seq ∧
      final.txStatsOutputRead .empty =
        .ok (seq, { final with armed := fun _ => final.txEnabled }) ∧
      ∀ p, final.filter p = true →
        (final.entry p = Text.decimal p.val ++ '=' :: Text.decimal (sentSince p ops) ↔
          (Runs.sessionStart step (turnsOn p) init ops final).txStats p = 0 ∧
            sentSince p ops < 2 ^ 63) := by
  have decides : ∀ s op, True → ((∃ t, step s op = .ok t) ↔ op.InBounds) :=
    fun s op _ => s.step_ok_iff op
  obtain ⟨final, ran⟩ := (Runs.run_ok_iff TxOp.InBounds decides (fun s op t _ _ => trivial) init
    trivial ops).mpr fun op member => (accepted op member).inBounds
  obtain ⟨seq, ended, read⟩ := final.output_read_ok
  refine ⟨final, seq, ran, ended, read, ?_⟩
  intro p watched
  rw [← bytes_exact_iff ran p watched]
  unfold entry
  rw [List.append_cancel_left_eq, List.cons_inj_right, Text.decimal_injective.eq_iff]

def seven : Pid := ⟨7, by decide⟩

def watchSeven : TxOp := .writeFilter true true "7\n".toList

def firstSend : List TxOp :=
  [watchSeven, .writeEnable "1\n".toList, .send .tcpSendmsg seven 100]

def resumed : List TxOp := firstSend ++ [.writeEnable "0\n".toList, watchSeven]

theorem resumed_accepted : ∀ op ∈ resumed, op.Accepted := by
  have watch : watchSeven.Accepted := ⟨by decide, by decide⟩
  unfold resumed firstSend
  simp only [List.cons_append, List.nil_append, List.forall_mem_cons]
  exact ⟨watch, trivial, trivial, trivial, watch, fun op member => absurd member List.not_mem_nil⟩

theorem first_send_exact :
    ∃ final, Runs.run step init firstSend = .ok final ∧
      final.entry seven = "7=".toList ++ Text.decimal (sentSince seven firstSend) := by
  obtain ⟨final, _, ran, _, _, counts⟩ := sent_from_zero_iff firstSend fun op member =>
    resumed_accepted op (List.mem_append_left _ member)
  have watched : (Runs.run step init firstSend).map (fun s => s.filter seven) = .ok true := by
    decide
  have head : ((Runs.session step (turnsOn seven) init firstSend).map Prod.fst).head?.map
      (fun s => s.txStats seven) = some 0 := by decide
  rw [ran] at watched
  obtain ⟨start, first, zero⟩ := Option.map_eq_some_iff.mp head
  refine ⟨final, ran, (counts seven (Except.ok.inj watched)).mpr ⟨?_, by decide⟩⟩
  unfold Runs.sessionStart
  rw [List.headD_eq_head?_getD, first]
  exact zero

theorem resumed_shows_old_bytes :
    (∀ op ∈ resumed, op.Accepted) ∧
      ∃ final, Runs.run step init resumed = .ok final ∧
        "7=100".toList ∈ final.setBits.map final.entry ∧ sentSince seven resumed = 0 := by
  refine ⟨resumed_accepted, ?_⟩
  have printed : (Runs.run step init resumed).map (fun s => (s.filter seven, s.entry seven)) =
      .ok (true, "7=100".toList) := by decide
  cases ran : Runs.run step init resumed with
  | error fault =>
      rw [ran] at printed
      cases printed
  | ok final =>
      rw [ran] at printed
      obtain ⟨watched, entry⟩ := Prod.mk.inj (Except.ok.inj printed)
      refine ⟨final, rfl, ?_, by decide⟩
      rw [← entry]
      exact List.mem_map_of_mem (List.mem_filter.mpr ⟨List.mem_finRange seven, watched⟩)

end TxStat

end WPerf.Module
