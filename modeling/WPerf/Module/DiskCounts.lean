import WPerf.Module.DiskTable

/-!
# What the disk counters stand for

The counters are counted by row and printed next to a name. As long as no
filter write or disable comes between, a row keeps its name, so that its
counter grows by the hits of that device; what it started from is what the
filter write found in the row.
-/

namespace WPerf.Module

open WPerf.Library

set_option autoImplicit false

/-- A filter text reaches the token loop, all its names fit the table, and no
name occurs twice. -/
def DiskOp.Accepted : DiskOp → Prop
  | .writeFilter page dup ubuf =>
      (ubuf.length < pageSize ∧ page ∧ dup) ∧
        (filterTokens (cString ubuf)).all fitsRow ∧
        (filterTokens (cString ubuf)).length ≤ maxDiskNum ∧
        (filterTokens (cString ubuf)).Nodup
  | _ => True

theorem DiskOp.Accepted.inBounds {op : DiskOp} (accepted : op.Accepted) : op.InBounds := by
  cases op with
  | writeFilter page dup ubuf =>
      intro _
      exact Nat.le_trans (List.takeWhile_prefix fitsRow).length_le accepted.2.2.1
  | writeEnable ubuf => trivial
  | readEnable => trivial
  | readFilter => trivial
  | writeOutput => trivial
  | readOutput => trivial
  | hit hit => trivial

namespace DiskUtils

def startsCount (pair : DiskUtils × DiskOp) : Bool :=
  match pair.2 with
  | .writeFilter _ _ _ => true
  | .writeEnable ubuf => enableValue ubuf == some false
  | _ => false

/-- How long a device was busy, as an operation shows it: a hit counts if it
finds the probe armed and belongs to the device's disk. -/
def busyTime (device : List Char) (pair : DiskUtils × DiskOp) : UInt64 :=
  match pair.2 with
  | .hit hit =>
      if pair.1.armed ∧ cString hit.disk.name = device ∧ hit.busy then hit.duration else 0
  | _ => 0

def busySince (device : List Char) (ops : List DiskOp) : Nat :=
  ((Runs.session step startsCount init ops).map fun pair => (busyTime device pair).toNat).sum

structure Distinct (s : DiskUtils) : Prop where
  sound : s.Sound
  nodup : s.names.Nodup

theorem init_distinct : init.Distinct := ⟨init_sound, List.nodup_nil⟩

/-- Between two operations that start a count, the names stay. -/
theorem moves_names (s : DiskUtils) (op : DiskOp) (t : DiskUtils) (moves : s.Moves op t)
    (goesOn : startsCount (s, op) = false) : t.names = s.names := by
  have same : ∀ t : DiskUtils, t = s → t.names = s.names := fun t equal => congrArg names equal
  have kept : ∀ t : DiskUtils, t.dnames = s.dnames → t.didx = s.didx → t.names = s.names := by
    intro t dnames didx
    unfold names
    rw [dnames, didx]
  cases op with
  | writeEnable ubuf =>
      unfold Moves at moves
      dsimp only at moves
      cases value : enableValue ubuf with
      | none =>
          rw [value] at moves
          exact same t moves
      | some value' =>
          rw [value] at moves
          have on : value' = true := by
            cases value' with
            | true => rfl
            | false =>
                change (enableValue ubuf == some false) = false at goesOn
                rw [value] at goesOn
                cases goesOn
          apply kept t moves.dnames
          rw [moves.didx, on, if_pos rfl]
  | writeFilter page dup ubuf => cases goesOn
  | hit hit =>
      unfold Moves at moves
      dsimp only at moves
      split_ifs at moves with armed
      · exact kept t moves.dnames moves.didx
      · exact same t moves
  | readOutput =>
      have rearmed : t = { s with armed := s.denabled } := moves
      rw [rearmed]
      rfl
  | readEnable => exact same t moves
  | readFilter => exact same t moves
  | writeOutput => exact same t moves

theorem step_distinct (s : DiskUtils) (op : DiskOp) (t : DiskUtils) (accepted : op.Accepted)
    (distinct : s.Distinct) (ran : s.step op = .ok t) : t.Distinct := by
  refine ⟨s.step_sound op t distinct.sound ran, ?_⟩
  have moves := (s.step_cases op t distinct.sound ran).2
  cases goesOn : startsCount (s, op) with
  | false =>
      rw [s.moves_names op t moves goesOn]
      exact distinct.nodup
  | true =>
      cases op with
      | writeFilter page dup ubuf =>
          obtain ⟨reached, fit, _, nodup⟩ := accepted
          unfold Moves at moves
          dsimp only at moves
          rw [if_pos reached] at moves
          have noNul : '\x00' ∉ cString ubuf := by
            intro inside
            exact absurd (List.mem_takeWhile_imp inside) (by decide)
          rw [moves.names noNul]
          exact nodup.sublist (List.takeWhile_sublist fitsRow)
      | writeEnable ubuf =>
          have off : enableValue ubuf = some false := beq_iff_eq.mp goesOn
          unfold Moves at moves
          dsimp only at moves
          rw [off] at moves
          unfold names
          rw [moves.didx]
          exact List.nodup_nil
      | readEnable => cases goesOn
      | readFilter => cases goesOn
      | writeOutput => cases goesOn
      | readOutput => cases goesOn
      | hit hit => cases goesOn

theorem find_name_iff (s : DiskUtils) (distinct : s.Distinct) (i : Nat) (used : i < s.didx)
    (device : List Char) :
    (s.names.findIdx? fun name => name = device) = some i ↔ device = s.name i := by
  have inNames : i < s.names.length := by
    rw [s.names_length distinct.sound.readable]
    exact used
  have here : s.name i = s.names[i] := by
    unfold name
    rw [List.getD_eq_getElem?_getD, List.getElem?_eq_getElem inNames, Option.getD_some]
  rw [here, List.findIdx?_eq_some_iff_getElem]
  constructor
  · intro ⟨_, found, _⟩
    exact (of_decide_eq_true found).symm
  · intro same
    refine ⟨inNames, decide_eq_true same.symm, ?_⟩
    intro j before found
    have equal : s.names[j] = s.names[i] := (of_decide_eq_true found).trans same
    have position := (List.Nodup.getElem_inj_iff distinct.nodup).mp equal
    omega

def rowTime (i : Nat) (pair : DiskUtils × DiskOp) : UInt64 :=
  match pair.2 with
  | .hit hit =>
      if pair.1.armed ∧
          (pair.1.names.findIdx? fun name => name = cString hit.disk.name) = some i ∧ hit.busy then
        hit.duration
      else 0
  | _ => 0

theorem row_time_eq (i : Nat) (pair : DiskUtils × DiskOp) (distinct : pair.1.Distinct)
    (used : i < pair.1.didx) : rowTime i pair = busyTime (pair.1.name i) pair := by
  obtain ⟨s, op⟩ := pair
  cases op with
  | hit hit =>
      unfold rowTime busyTime
      dsimp only
      simp only [s.find_name_iff distinct i used]
  | writeEnable ubuf => rfl
  | readEnable => rfl
  | writeFilter page dup ubuf => rfl
  | readFilter => rfl
  | writeOutput => rfl
  | readOutput => rfl

theorem moves_util (s : DiskUtils) (op : DiskOp) (t : DiskUtils) (i : Nat) (moves : s.Moves op t)
    (goesOn : startsCount (s, op) = false) :
    (t.util i).toUInt64 = (s.util i).toUInt64 + rowTime i (s, op) := by
  have kept : ∀ t : DiskUtils, t.util i = s.util i →
      (t.util i).toUInt64 = (s.util i).toUInt64 + 0 := by
    intro t equal
    rw [equal, UInt64.add_zero]
  have same : ∀ t : DiskUtils, t = s → (t.util i).toUInt64 = (s.util i).toUInt64 + 0 :=
    fun t equal => kept t (congrArg (fun s => s.util i) equal)
  cases op with
  | writeEnable ubuf =>
      unfold Moves at moves
      dsimp only at moves
      cases value : enableValue ubuf with
      | none =>
          rw [value] at moves
          exact same t moves
      | some value' =>
          rw [value] at moves
          apply kept t
          rw [moves.util i, if_neg]
          intro ⟨off, _⟩
          change (enableValue ubuf == some false) = false at goesOn
          rw [value, off] at goesOn
          cases goesOn
  | writeFilter page dup ubuf => cases goesOn
  | hit hit =>
      unfold Moves at moves
      unfold rowTime
      dsimp only at moves ⊢
      by_cases armed : s.armed = true
      · rw [if_pos armed] at moves
        rw [moves.util i]
        simp only [armed, true_and]
      · rw [if_neg armed] at moves
        rw [if_neg fun counted => armed counted.1]
        exact same t moves
  | readOutput =>
      have rearmed : t = { s with armed := s.denabled } := moves
      apply kept t
      rw [rearmed]
      rfl
  | readEnable => exact same t moves
  | readFilter => exact same t moves
  | writeOutput => exact same t moves

section Run

variable {ops : List DiskOp} (accepted : ∀ op ∈ ops, op.Accepted) {final : DiskUtils}
  (ran : Runs.run step init ops = .ok final)

include accepted ran

theorem session_names :
    ∀ pair ∈ Runs.session step startsCount init ops,
      pair.1.Distinct ∧ pair.1.names = final.names := by
  have distinct := Runs.run_invariant step_distinct init_distinct accepted ran
  refine (Runs.session_back step_distinct init_distinct accepted ran
    (fun s => s.Distinct ∧ s.names = final.names) ?_ ⟨distinct, rfl⟩).2
  intro s op t _ distinct goesOn first held
  have moves := (s.step_cases op t distinct.sound first).2
  exact ⟨distinct, (s.moves_names op t moves goesOn).symm.trans held.2⟩

theorem util_exact_iff (i : Nat) (used : i < final.didx) :
    (final.util i).toInt = busySince (final.name i) ops ↔
      (Runs.sessionStart step startsCount init ops final).util i = 0 ∧
        busySince (final.name i) ops < 2 ^ 63 := by
  have distinct := Runs.run_invariant step_distinct init_distinct accepted ran
  have names := session_names accepted ran
  apply Runs.session_counter_iff step_distinct init_distinct accepted ran (fun s => s.util i)
    (rowTime i) (busyTime (final.name i))
  · intro s op t _ distinct goesOn first
    exact s.moves_util op t i (s.step_cases op t distinct.sound first).2 goesOn
  · intro pair member
    obtain ⟨before, same⟩ := names pair member
    have size : pair.1.didx = final.didx := by
      rw [← pair.1.names_length before.sound.readable, same, final.names_length distinct.sound.readable]
    have text : pair.1.name i = final.name i := by
      unfold name
      rw [same]
    rw [row_time_eq i pair before (by rw [size]; exact used), text]

end Run

/-- In every run with accepted filter writes, the output lists the names with
their counters, and the number next to a name is the time its device was busy
since the latest filter write or disable exactly when that operation left zero
in the name's row and the time fits in a `long`. -/
theorem counted_from_zero_iff (ops : List DiskOp) (accepted : ∀ op ∈ ops, op.Accepted) :
    ∃ final, Runs.run step init ops = .ok final ∧
      final.dutilsOutputRead .empty =
        .ok (if final.didx = 0 then TraceSeq.empty.puts "none\n".toList
            else TraceSeq.empty.printList ((List.range final.didx).map final.entry),
          { final with armed := final.denabled }) ∧
      ∀ i < final.didx,
        (final.entry i =
            final.name i ++ '=' :: Text.decimal (busySince (final.name i) ops) ↔
          (Runs.sessionStart step startsCount init ops final).util i = 0 ∧
            busySince (final.name i) ops < 2 ^ 63) := by
  obtain ⟨final, ran⟩ := (Runs.run_ok_iff DiskOp.InBounds step_ok_iff step_sound init init_sound
    ops).mpr fun op member => (accepted op member).inBounds
  have distinct := Runs.run_invariant step_distinct init_distinct accepted ran
  refine ⟨final, ran, final.output_read_ok distinct.sound.readable .empty, ?_⟩
  intro i used
  rw [← util_exact_iff accepted ran i used]
  unfold entry
  rw [List.append_cancel_left_eq, List.cons_inj_right, Text.decimal_injective.eq_iff]

def busyDisk (name : List Char) : PartHit where
  jiffies := 100
  part := { partno := 0, name := name, stamp := 90, inFlight := 1 }
  part0 := { partno := 0, name := name, stamp := 90, inFlight := 1 }

def sdaHit : List DiskOp :=
  [.writeFilter true true "sda\n".toList, .writeEnable "1\n".toList, .hit (busyDisk "sda".toList)]

def renamed : List DiskOp := sdaHit ++ [.writeFilter true true "sdb\n".toList]

theorem renamed_accepted : ∀ op ∈ renamed, op.Accepted := by
  unfold renamed sdaHit
  simp only [List.cons_append, List.nil_append, List.forall_mem_cons]
  exact ⟨⟨by decide, by decide, by decide, by decide⟩, trivial, trivial,
    ⟨by decide, by decide, by decide, by decide⟩, fun op member => absurd member List.not_mem_nil⟩

theorem first_count_exact :
    ∃ final, Runs.run step init sdaHit = .ok final ∧
      final.entry 0 = "sda=".toList ++ Text.decimal (busySince "sda".toList sdaHit) := by
  obtain ⟨final, ran, _, counts⟩ := counted_from_zero_iff sdaHit fun op member =>
    renamed_accepted op (List.mem_append_left _ member)
  have read : (Runs.run step init sdaHit).map (fun s => (s.didx, s.name 0)) =
      .ok (1, "sda".toList) := by decide
  have head : ((Runs.session step startsCount init sdaHit).map Prod.fst).head?.map
      (fun s => s.util 0) = some 0 := by decide
  rw [ran] at read
  obtain ⟨size, name⟩ := Prod.mk.inj (Except.ok.inj read)
  obtain ⟨start, first, zero⟩ := Option.map_eq_some_iff.mp head
  have exact := (counts 0 (by rw [size]; decide)).mpr
  rw [name] at exact
  refine ⟨final, ran, exact ⟨?_, by decide⟩⟩
  unfold Runs.sessionStart
  rw [List.headD_eq_head?_getD, first]
  exact zero

theorem renamed_shows_old_time :
    (∀ op ∈ renamed, op.Accepted) ∧
      (Runs.run step init renamed >>= fun s => s.dutilsOutputRead .empty).map
          (fun result => result.1.buffer) = .ok "sdb=10\n".toList ∧
      busySince "sdb".toList renamed = 0 :=
  ⟨renamed_accepted, by decide, by decide⟩

end DiskUtils

end WPerf.Module
