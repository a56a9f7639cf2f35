import WPerf.Trace.Json
import WPerf.Trace.Lines

/-!
# Trace text decodes back to the record

As long as names hold neither white space nor ',' nor '=', nothing is forged
and no column is shifted. The object of a line then has one member for each
field, in the order of the template, and the loader reads the numbers back.
-/

namespace WPerf.Trace

open WPerf.Library
open WPerf.Analyzer (Switch Soft)

set_option autoImplicit false

/-- A name that cannot be taken for anything else. -/
def PlainName (name : List Char) : Prop :=
  ∀ c ∈ name, Text.isSpace c = false ∧ c ≠ ',' ∧ c ≠ '='

instance decidablePlainName (name : List Char) : Decidable (PlainName name) :=
  inferInstanceAs (Decidable (∀ c ∈ name, _))

theorem plain_name_printable (name : List Char) (plain : PlainName name) : Printable name :=
  fun c member => Or.inr (plain c member).1

theorem plain_name_absent (name : List Char) (plain : PlainName name) :
    ' ' ∉ name ∧ ',' ∉ name ∧ '=' ∉ name := by
  refine ⟨?_, ?_, ?_⟩
  · intro member
    have solid := (plain ' ' member).1
    cases solid
  · intro member
    exact (plain ',' member).2.1 rfl
  · intro member
    exact (plain '=' member).2.2 rfl

theorem plain_name_reads (name : List Char) (plain : PlainName name) :
    Reads name ∧ squeeze (ownPart name) = name ∧ forgeries name = [] := by
  obtain ⟨noBlank, noComma, noEqual⟩ := plain_name_absent name plain
  obtain ⟨own, none⟩ := plain_value name noComma
  have kept : squeeze name = name := by
    apply List.filter_eq_self.mpr
    intro c member
    simp only [ne_eq, decide_not, Bool.not_eq_eq_eq_not, Bool.not_true, decide_eq_false_iff_not]
    intro blank
    rw [blank] at member
    exact noBlank member
  refine ⟨⟨?_, ?_, ?_⟩, ?_, ?_⟩
  · intro inside
    exact noBlank (inside.subset (by simp))
  · rw [own]
    exact noEqual
  · rw [none]
    exact fun piece member => absurd member List.not_mem_nil
  · rw [own, kept]
  · unfold forgeries
    rw [none]
    rfl

theorem plain_task_whole (header : Header) (plain : PlainName header.task) :
    header.TaskWhole := by
  intro c member
  exact (plain c ((List.dropWhile_sublist _).subset member)).1

/-- The entry a switch line stands for. -/
def SwitchLine.recorded (line : SwitchLine) : Switch where
  cpu := .ofInt line.header.cpu
  time := line.entry.tsc
  type := line.entry.type.toInt64
  prevPid := line.entry.prevPid.toInt64
  nextPid := line.entry.nextPid.toInt64
  prevState := line.entry.prevState.toUInt64
  nextState := line.entry.nextState.toUInt64
  prevComm := String.ofList line.entry.prevComm.text
  nextComm := String.ofList line.entry.nextComm.text
  inWhichCtx := line.entry.inWhichCtx.toInt64

def SoftirqLine.recorded (line : SoftirqLine) : Soft where
  cpu := .ofInt line.header.cpu
  stime := line.entry.beginTime
  etime := line.entry.endTime

structure SwitchLine.Plain (line : SwitchLine) : Prop where
  task : PlainName line.header.task
  prevComm : PlainName line.entry.prevComm.text
  nextComm : PlainName line.entry.nextComm.text
  prevState : 0 ≤ line.entry.prevState
  nextState : 0 ≤ line.entry.nextState

structure SoftirqLine.Plain (line : SoftirqLine) : Prop where
  task : PlainName line.header.task
  prevComm : PlainName line.entry.prevComm.text

theorem header_members_switch (header : Header) (e : Switch) :
    header.members.foldlM setSwitchMember e = some { e with cpu := .ofInt header.cpu } := by
  have cpu : ∀ e : Switch, setSwitchMember e ("cpu".toList, .number header.cpu) =
      some { e with cpu := .ofInt header.cpu } := by
    intro e
    change (plainInt (.number header.cpu)).map _ = _
    rw [cpu_number]
    rfl
  change (setSwitchMember e ("cpu".toList, .number header.cpu) >>= _) = _
  rw [cpu]
  rfl

theorem header_members_soft (header : Header) (e : Soft) :
    header.members.foldlM setSoftMember e = some { e with cpu := .ofInt header.cpu } := by
  have cpu : ∀ e : Soft, setSoftMember e ("cpu".toList, .number header.cpu) =
      some { e with cpu := .ofInt header.cpu } := by
    intro e
    change (plainInt (.number header.cpu)).map _ = _
    rw [cpu_number]
    rfl
  change (setSoftMember e ("cpu".toList, .number header.cpu) >>= _) = _
  rw [cpu]
  rfl

def SwitchLine.plainMembers (line : SwitchLine) : List (List Char × Value) :=
  line.front ++ line.middle ++ line.back

theorem plain_assignments (line : SwitchLine) (plain : line.Plain) :
    line.assignments = line.plainMembers := by
  have prev := (plain_name_reads _ plain.prevComm).2.2
  have next := (plain_name_reads _ plain.nextComm).2.2
  unfold SwitchLine.assignments SwitchLine.plainMembers
  rw [prev, next, List.append_nil, List.append_nil]

theorem fresh_object_entries (header : Header) (pairs : List (List Char × Value))
    (fresh : ((header.members ++ pairs).map Prod.fst).Nodup) :
    (header.object.setAll pairs).entries = header.members ++ pairs := by
  have whole : header.object.setAll pairs = Dict.empty.setAll (header.members ++ pairs) := by
    unfold Header.object Dict.setAll
    rw [List.foldl_append]
  rw [whole]
  exact Dict.set_all_entries Dict.empty _ fresh

theorem int_member (old : Int64) (n : Int32) (put : Int64 → Switch) :
    (quotedInt old (.text (Text.decimal n.toInt))).map put = some (put n.toInt64) := by
  rw [quoted_int_decimal]
  rfl

theorem state_member (old : UInt64) (n : Int64) (nonneg : 0 ≤ n) (put : UInt64 → Switch) :
    (quotedUint old (.text (Text.decimal n.toInt))).map put = some (put n.toUInt64) := by
  rw [quoted_uint_state, if_neg (Int64.not_lt.mpr nonneg)]
  rfl

theorem time_member (entry : SwitchEntry) (e : Switch) :
    setSwitchMember e ("tsc".toList, .text (Text.decimal entry.tsc.toNat)) =
      some { e with time := entry.tsc } := by
  change (quotedUint _ _).map _ = _
  rw [quoted_uint_time]
  rfl

theorem plain_members_read (line : SwitchLine) (plain : line.Plain) (e : Switch) :
    line.plainMembers.foldlM setSwitchMember e = some { line.recorded with cpu := e.cpu } := by
  have type : ∀ e : Switch, setSwitchMember e
      ("type".toList, .text (Text.decimal line.entry.type.toInt)) =
        some { e with type := line.entry.type.toInt64 } :=
    fun e => int_member e.type _ _
  have prevComm : ∀ e : Switch, setSwitchMember e
      ("prev_comm".toList, .text (squeeze (ownPart line.entry.prevComm.text))) =
        some { e with prevComm := String.ofList line.entry.prevComm.text } := by
    intro e
    rw [(plain_name_reads _ plain.prevComm).2.1]
    rfl
  have nextComm : ∀ e : Switch, setSwitchMember e
      ("next_comm".toList, .text (squeeze (ownPart line.entry.nextComm.text))) =
        some { e with nextComm := String.ofList line.entry.nextComm.text } := by
    intro e
    rw [(plain_name_reads _ plain.nextComm).2.1]
    rfl
  have prevPid : ∀ e : Switch, setSwitchMember e
      ("prev_pid".toList, .text (Text.decimal line.entry.prevPid.toInt)) =
        some { e with prevPid := line.entry.prevPid.toInt64 } :=
    fun e => int_member e.prevPid _ _
  have nextPid : ∀ e : Switch, setSwitchMember e
      ("next_pid".toList, .text (Text.decimal line.entry.nextPid.toInt)) =
        some { e with nextPid := line.entry.nextPid.toInt64 } :=
    fun e => int_member e.nextPid _ _
  have prevState : ∀ e : Switch, setSwitchMember e
      ("prev_state".toList, .text (Text.decimal line.entry.prevState.toInt)) =
        some { e with prevState := line.entry.prevState.toUInt64 } :=
    fun e => state_member e.prevState _ plain.prevState _
  have nextState : ∀ e : Switch, setSwitchMember e
      ("next_state".toList, .text (Text.decimal line.entry.nextState.toInt)) =
        some { e with nextState := line.entry.nextState.toUInt64 } :=
    fun e => state_member e.nextState _ plain.nextState _
  have inWhichCtx : ∀ e : Switch, setSwitchMember e
      ("in_which_ctx".toList, .text (Text.decimal line.entry.inWhichCtx.toInt)) =
        some { e with inWhichCtx := line.entry.inWhichCtx.toInt64 } :=
    fun e => int_member e.inWhichCtx _ _
  unfold SwitchLine.plainMembers SwitchLine.front SwitchLine.middle SwitchLine.back
  simp only [List.cons_append, List.nil_append, List.foldlM_cons, List.foldlM_nil, type,
    time_member, prevComm, nextComm, prevPid, nextPid, prevState, nextState, inWhichCtx]
  rfl

theorem plain_switch_received (line : SwitchLine) (plain : line.Plain) :
    receivedSwitch line.print = some line.recorded := by
  have printable : line.AllPrintable := ⟨plain_name_printable _ plain.task,
    plain_name_printable _ plain.prevComm, plain_name_printable _ plain.nextComm⟩
  have legible : line.Legible := ⟨plain_task_whole _ plain.task,
    (plain_name_reads _ plain.prevComm).1, (plain_name_reads _ plain.nextComm).1⟩
  have encoded := (switch_line_iff line printable _).mpr ⟨legible, rfl⟩
  have keys : (line.header.members ++ line.plainMembers).map Prod.fst =
      ["comm".toList, "pid".toList, "cpu".toList, "irqs_off".toList, "need_resched".toList,
        "ctx".toList, "preempt_depth".toList, "timestamp".toList, "type".toList, "tsc".toList,
        "prev_comm".toList, "next_comm".toList, "prev_pid".toList, "next_pid".toList,
        "prev_state".toList, "next_state".toList, "in_which_ctx".toList] := rfl
  have entries := fresh_object_entries line.header line.plainMembers (by rw [keys]; decide)
  unfold receivedSwitch
  rw [encoded, plain_assignments line plain, Option.bind_some, entries, List.foldlM_append,
    header_members_switch]
  change line.plainMembers.foldlM setSwitchMember _ = _
  rw [plain_members_read line plain]
  rfl

theorem plain_softirq_received (line : SoftirqLine) (plain : line.Plain) :
    receivedSoft line.print = some line.recorded := by
  obtain ⟨reads, own, none⟩ := plain_name_reads _ plain.prevComm
  have encoded := (softirq_line_iff line (plain_name_printable _ plain.prevComm) _).mpr
    ⟨⟨plain_task_whole _ plain.task, reads⟩, rfl⟩
  have assigned : line.assignments = [("prev_comm".toList, .text line.entry.prevComm.text),
      ("begin_time".toList, .text (Text.decimal line.entry.beginTime.toNat)),
      ("end_time".toList, .text (Text.decimal line.entry.endTime.toNat))] := by
    unfold SoftirqLine.assignments
    rw [own, none]
    rfl
  have keys : (line.header.members ++ line.assignments).map Prod.fst =
      ["comm".toList, "pid".toList, "cpu".toList, "irqs_off".toList, "need_resched".toList,
        "ctx".toList, "preempt_depth".toList, "timestamp".toList, "prev_comm".toList,
        "begin_time".toList, "end_time".toList] := by
    rw [assigned]
    rfl
  have entries := fresh_object_entries line.header line.assignments (by rw [keys]; decide)
  unfold receivedSoft
  rw [encoded, Option.bind_some, entries, List.foldlM_append, header_members_soft, assigned]
  change (Option.map _ (quotedUint _ (.text (Text.decimal line.entry.beginTime.toNat)))).bind _ = _
  rw [quoted_uint_time]
  change (Option.map _ (quotedUint _ (.text (Text.decimal line.entry.endTime.toNat)))).bind _ = _
  rw [quoted_uint_time]
  rfl

/-- Encoding and loading gives back every record, in order. -/
theorem trace_text_round_trip (json : JsonCodec) (switches : List SwitchLine)
    (softirqs : List SoftirqLine) (plainSwitches : ∀ line ∈ switches, line.Plain)
    (plainSoftirqs : ∀ line ∈ softirqs, line.Plain) :
    decodeSwitch json (encode json (switches.map SwitchLine.print)) =
        switches.map SwitchLine.recorded ∧
      loadSoft json (encode json (softirqs.map SoftirqLine.print)) =
        softirqs.map SoftirqLine.recorded := by
  rw [decode_encode, load_encode, List.filterMap_map, List.filterMap_map]
  constructor
  · rw [← List.filterMap_eq_map]
    apply List.filterMap_congr
    intro line member
    exact plain_switch_received line (plainSwitches line member)
  · rw [← List.filterMap_eq_map]
    apply List.filterMap_congr
    intro line member
    exact plain_softirq_received line (plainSoftirqs line member)

def workerLine : SwitchLine :=
  ⟨.sample "kworker/3:1", .switchTo,
    ⟨0, 55, .named "kworker/3:1", .named "swapper/3", 7, 0, 2, 0, -3⟩⟩

def softirqLine : SoftirqLine := ⟨.sample "sshd", ⟨.named "sshd", 60, 70⟩⟩

theorem worker_text_round_trip :
    decodeSwitch Json.codec (encode Json.codec ([workerLine].map SwitchLine.print)) =
        [workerLine].map SwitchLine.recorded ∧
      loadSoft Json.codec (encode Json.codec ([softirqLine].map SoftirqLine.print)) =
        [softirqLine].map SoftirqLine.recorded := by
  apply trace_text_round_trip Json.codec [workerLine] [softirqLine]
  · intro line member
    rw [List.mem_singleton.mp member]
    exact ⟨by decide, by decide, by decide, by decide, by decide⟩
  · intro line member
    rw [List.mem_singleton.mp member]
    exact ⟨by decide, by decide⟩

end WPerf.Trace
