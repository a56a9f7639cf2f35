import WPerf.Trace.Fields
import WPerf.Trace.Load

/-!
# Lines of the five events

The printed records as lists of fields, and what becomes of a line on its way
through the encoder and the loader. The file in between drops out: the loader
gets, line by line, what the encoder made of the lines it could read.
-/

namespace WPerf.Trace

open WPerf.Library
open WPerf.Analyzer (Switch Soft)

set_option autoImplicit false

structure SwitchLine where
  header : Header
  event : SwitchEvent
  entry : SwitchEntry

structure SoftirqLine where
  header : Header
  entry : SoftirqEntry

def SwitchLine.print (line : SwitchLine) : List Char :=
  line.header.line line.event.name (line.event.printk line.entry)

def SoftirqLine.print (line : SoftirqLine) : List Char :=
  line.header.line softirqName (softirqPrintk line.entry)

/-- The blank is the only white space a printable text holds. -/
def Printable (s : List Char) : Prop := ∀ c ∈ s, c = ' ' ∨ Text.isSpace c = false

instance decidablePrintable (s : List Char) : Decidable (Printable s) :=
  inferInstanceAs (Decidable (∀ c ∈ s, _))

theorem printable_one_line (s : List Char) (printable : Printable s) : '\n' ∉ s := by
  intro inside
  rcases printable '\n' inside with blank | solid
  · cases blank
  · cases solid

structure SwitchLine.AllPrintable (line : SwitchLine) : Prop where
  task : Printable line.header.task
  prevComm : Printable line.entry.prevComm.text
  nextComm : Printable line.entry.nextComm.text

def switchFields (gap : List Char) (entry : SwitchEntry) : List Field :=
  [⟨"type".toList, Text.decimal entry.type.toInt⟩,
    ⟨" tsc".toList, Text.decimal entry.tsc.toNat⟩,
    ⟨" prev_comm".toList, entry.prevComm.text⟩,
    ⟨" next_comm".toList, entry.nextComm.text⟩,
    ⟨gap ++ "prev_pid".toList, Text.decimal entry.prevPid.toInt⟩,
    ⟨" next_pid".toList, Text.decimal entry.nextPid.toInt⟩,
    ⟨" prev_state".toList, Text.decimal entry.prevState.toInt⟩,
    ⟨" next_state".toList, Text.decimal entry.nextState.toInt⟩,
    ⟨" in_which_ctx".toList, Text.decimal entry.inWhichCtx.toInt⟩]

def softirqFields (entry : SoftirqEntry) : List Field :=
  [⟨"prev_comm".toList, entry.prevComm.text⟩,
    ⟨" begin_time".toList, Text.decimal entry.beginTime.toNat⟩,
    ⟨" end_time".toList, Text.decimal entry.endTime.toNat⟩]

theorem switch_text_fields (gap : List Char) (entry : SwitchEntry) :
    switchText gap entry = fieldsText (switchFields gap entry) := by
  unfold switchText fieldsText switchFields
  simp [Field.text, List.intercalate_cons_cons]

theorem softirq_text_fields (entry : SoftirqEntry) :
    softirqPrintk entry = fieldsText (softirqFields entry) := by
  unfold softirqPrintk fieldsText softirqFields
  simp [Field.text, List.intercalate_cons_cons]

theorem event_name_solid (event : SwitchEvent) :
    (∀ c ∈ event.name, Text.isSpace c = false) ∧ event.name ≠ [] := by
  cases event <;> decide

theorem printk_fields (event : SwitchEvent) (entry : SwitchEntry) :
    ∃ gap, (gap = [' '] ∨ gap = [' ', ' ']) ∧
      event.printk entry = fieldsText (switchFields gap entry) := by
  cases event with
  | doExit => exact ⟨[' ', ' '], Or.inr rfl, switch_text_fields _ entry⟩
  | switchTo => exact ⟨[' '], Or.inl rfl, switch_text_fields _ entry⟩
  | tryToWakeUp => exact ⟨[' '], Or.inl rfl, switch_text_fields _ entry⟩
  | wakeUpNewTask => exact ⟨[' '], Or.inl rfl, switch_text_fields _ entry⟩

namespace SwitchLine

/-- The members a switch line makes before the first name can forge any. -/
def front (line : SwitchLine) : List (List Char × Value) :=
  [("type".toList, .text (Text.decimal line.entry.type.toInt)),
    ("tsc".toList, .text (Text.decimal line.entry.tsc.toNat)),
    ("prev_comm".toList, .text (squeeze (ownPart line.entry.prevComm.text)))]

def middle (line : SwitchLine) : List (List Char × Value) :=
  [("next_comm".toList, .text (squeeze (ownPart line.entry.nextComm.text)))]

def back (line : SwitchLine) : List (List Char × Value) :=
  [("prev_pid".toList, .text (Text.decimal line.entry.prevPid.toInt)),
    ("next_pid".toList, .text (Text.decimal line.entry.nextPid.toInt)),
    ("prev_state".toList, .text (Text.decimal line.entry.prevState.toInt)),
    ("next_state".toList, .text (Text.decimal line.entry.nextState.toInt)),
    ("in_which_ctx".toList, .text (Text.decimal line.entry.inWhichCtx.toInt))]

def assignments (line : SwitchLine) : List (List Char × Value) :=
  line.front ++ forgeries line.entry.prevComm.text ++ line.middle ++
    forgeries line.entry.nextComm.text ++ line.back

/-- The line as the encoder can read it. -/
structure Legible (line : SwitchLine) : Prop where
  task : line.header.TaskWhole
  prevComm : Reads line.entry.prevComm.text
  nextComm : Reads line.entry.nextComm.text

end SwitchLine

theorem squeeze_decimal (n : Int) : squeeze (Text.decimal n) = Text.decimal n := by
  apply List.filter_eq_self.mpr
  intro c member
  have solid := decimal_solid n c member
  simp only [ne_eq, decide_not, Bool.not_eq_eq_eq_not, Bool.not_true, decide_eq_false_iff_not]
  intro blank
  rw [blank] at solid
  cases solid

theorem decimal_assignments (label : List Char) (n : Int) :
    (Field.mk label (Text.decimal n)).assignments =
      [(squeeze label, .text (Text.decimal n))] := by
  obtain ⟨own, none⟩ := plain_value (Text.decimal n) (decimal_plain n ',' (by decide) (by decide))
  unfold Field.assignments forgeries
  dsimp only
  rw [own, none, squeeze_decimal]
  rfl

theorem switch_assignments (gap : List Char) (blanks : gap = [' '] ∨ gap = [' ', ' '])
    (line : SwitchLine) :
    (switchFields gap line.entry).flatMap Field.assignments = line.assignments := by
  have prevPid : squeeze (gap ++ "prev_pid".toList) = "prev_pid".toList := by
    rcases blanks with one | two
    · rw [one]
      decide
    · rw [two]
      decide
  unfold switchFields SwitchLine.assignments
  simp only [List.flatMap_cons, List.flatMap_nil, decimal_assignments, prevPid]
  unfold SwitchLine.front SwitchLine.middle SwitchLine.back Field.assignments
  simp
  decide

theorem switch_line_iff (line : SwitchLine) (printable : line.AllPrintable) (object : Object) :
    encodeLine line.print = some object ↔
      line.Legible ∧ line.header.object.setAll line.assignments = object := by
  obtain ⟨gap, blanks, fields⟩ := printk_fields line.event line.entry
  obtain ⟨solid, named⟩ := event_name_solid line.event
  have gapPlain : ':' ∉ gap ∧ ',' ∉ gap ∧ '=' ∉ gap ∧ '\n' ∉ gap := by
    rcases blanks with one | two
    · rw [one]
      decide
    · rw [two]
      decide
  have labelled : ∀ field ∈ switchFields gap line.entry, field.Labelled := by
    unfold switchFields
    simp only [List.forall_mem_cons, Field.Labelled]
    refine ⟨by decide, by decide, by decide, by decide, ?_, by decide, by decide, by decide,
      by decide, by simp⟩
    unfold PlainLabel
    simp [gapPlain]
  have decimalLine : ∀ n, '\n' ∉ Text.decimal n :=
    fun n => decimal_plain n '\n' (by decide) (by decide)
  have oneLine : ∀ field ∈ switchFields gap line.entry, '\n' ∉ field.value := by
    unfold switchFields
    simp [decimalLine, printable_one_line _ printable.prevComm,
      printable_one_line _ printable.nextComm]
  have reads : (∀ field ∈ switchFields gap line.entry, Reads field.value) ↔
      Reads line.entry.prevComm.text ∧ Reads line.entry.nextComm.text := by
    unfold switchFields
    simp [decimal_reads]
  unfold SwitchLine.print
  rw [fields, encode_fields_iff line.header line.event.name _ object solid named
    (by simp [switchFields]) labelled oneLine, reads, switch_assignments gap blanks]
  constructor
  · intro ⟨task, names, made⟩
    exact ⟨⟨task, names.1, names.2⟩, made⟩
  · intro ⟨legible, made⟩
    exact ⟨legible.task, ⟨legible.prevComm, legible.nextComm⟩, made⟩

def SoftirqLine.assignments (line : SoftirqLine) : List (List Char × Value) :=
  ("prev_comm".toList, .text (squeeze (ownPart line.entry.prevComm.text))) ::
    (forgeries line.entry.prevComm.text ++
      [("begin_time".toList, .text (Text.decimal line.entry.beginTime.toNat)),
        ("end_time".toList, .text (Text.decimal line.entry.endTime.toNat))])

theorem softirq_line_iff (line : SoftirqLine) (printable : Printable line.entry.prevComm.text)
    (object : Object) :
    encodeLine line.print = some object ↔
      (line.header.TaskWhole ∧ Reads line.entry.prevComm.text) ∧
        line.header.object.setAll line.assignments = object := by
  have labelled : ∀ field ∈ softirqFields line.entry, field.Labelled := by
    unfold softirqFields
    simp only [List.forall_mem_cons, Field.Labelled]
    exact ⟨by decide, by decide, by decide, by simp⟩
  have decimalLine : ∀ n, '\n' ∉ Text.decimal n :=
    fun n => decimal_plain n '\n' (by decide) (by decide)
  have oneLine : ∀ field ∈ softirqFields line.entry, '\n' ∉ field.value := by
    unfold softirqFields
    simp [decimalLine, printable_one_line _ printable]
  have reads : (∀ field ∈ softirqFields line.entry, Reads field.value) ↔
      Reads line.entry.prevComm.text := by
    unfold softirqFields
    simp [decimal_reads]
  have made : (softirqFields line.entry).flatMap Field.assignments = line.assignments := by
    unfold softirqFields SoftirqLine.assignments
    simp only [List.flatMap_cons, List.flatMap_nil, decimal_assignments]
    unfold Field.assignments
    simp
    decide
  unfold SoftirqLine.print
  rw [softirq_text_fields, encode_fields_iff line.header softirqName _ object (by decide)
    (by decide) (by simp [softirqFields]) labelled oneLine, reads, made, and_assoc]

theorem file_lines_joined (texts : List (List Char)) (oneLine : ∀ text ∈ texts, '\n' ∉ text) :
    fileLines (texts.flatMap fun text => text ++ ['\n']) = texts := by
  unfold fileLines
  rw [Text.splitOn_terminated '\n' texts oneLine, List.dropLast_concat]

theorem cpu_number (header : Header) :
    plainInt (.number header.cpu) = some (Int64.ofInt header.cpu) := by
  have fits := header.cpuFits
  have smallest : Int64.minValue.toInt = -2 ^ 63 := by decide
  have largest : Int64.maxValue.toInt = 2 ^ 63 - 1 := by decide
  unfold plainInt
  dsimp only
  rw [if_pos (by rw [smallest, largest]; omega)]

/-- What the loader gets of one line. -/
def receivedSwitch (line : List Char) : Option Switch :=
  (encodeLine line).bind fun object => object.entries.foldlM setSwitchMember zeroSwitch

def receivedSoft (line : List Char) : Option Soft :=
  (encodeLine line).bind fun object => object.entries.foldlM setSoftMember zeroSoft

section Transport

variable (json : JsonCodec) (lines : List (List Char))

theorem encoded_lines :
    fileLines (encode json lines) = (lines.filterMap encodeLine).map json.encode := by
  have joined := file_lines_joined ((lines.filterMap encodeLine).map json.encode) (by
    intro text member
    obtain ⟨object, _, same⟩ := List.mem_map.mp member
    rw [← same]
    exact json.oneLine object)
  rw [List.flatMap_map] at joined
  exact joined

/-- The file drops out: the loader gets the lines one by one. -/
theorem decode_encode : decodeSwitch json (encode json lines) = lines.filterMap receivedSwitch := by
  unfold decodeSwitch
  rw [encoded_lines, List.filterMap_map, List.filterMap_filterMap]
  apply List.filterMap_congr
  intro line _
  unfold receivedSwitch
  congr 1
  funext object
  change unmarshalSwitch json (json.encode object) = _
  unfold unmarshalSwitch
  rw [json.decodeEncode]
  rfl

theorem load_encode : loadSoft json (encode json lines) = lines.filterMap receivedSoft := by
  unfold loadSoft
  rw [encoded_lines, List.filterMap_map, List.filterMap_filterMap]
  apply List.filterMap_congr
  intro line _
  unfold receivedSoft
  congr 1
  funext object
  change unmarshalSoft json (json.encode object) = _
  unfold unmarshalSoft
  rw [json.decodeEncode]
  rfl

end Transport

end WPerf.Trace
