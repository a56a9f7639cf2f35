import WPerf.Trace.Encode
import WPerf.Trace.Print

/-!
# What the encoder makes of a printed line

The encoder cuts a line at its last two ": ", counts columns, and then reads
every piece between two commas as a field. For a line of the trace pipe this
succeeds exactly when the task prints as one word, no name holds ": ", and
every piece has one '='. The object then holds the header's columns and, for
each field name, the value of its last piece.
-/

namespace WPerf.Trace

open WPerf.Library

set_option autoImplicit false

def squeeze (s : List Char) : List Char := s.filter (· ≠ ' ')

def fieldOf (piece : List Char) : Option (List Char × Value) :=
  match (squeeze piece).splitOn '=' with
  | [k, v] => some (k, .text v)
  | _ => none

theorem assign_field_eq (structed : Object) (piece : List Char) :
    assignField structed piece = (fieldOf piece).map fun pair => structed.set pair.1 pair.2 := by
  unfold assignField fieldOf squeeze
  dsimp only
  generalize (piece.filter (· ≠ ' ')).splitOn '=' = parts
  rcases parts with _ | ⟨k, _ | ⟨v, _ | ⟨w, more⟩⟩⟩ <;> rfl

/-- The loop over the fields succeeds when every piece is an assignment, and
then makes all of them. -/
theorem assign_fields_iff (pieces : List (List Char)) (structed object : Object) :
    pieces.foldlM assignField structed = some object ↔
      (∀ piece ∈ pieces, (fieldOf piece).isSome) ∧
        structed.setAll (pieces.filterMap fieldOf) = object := by
  induction pieces generalizing structed with
  | nil => simp [Dict.setAll]
  | cons piece rest ih =>
      rw [List.foldlM_cons, assign_field_eq]
      cases own : fieldOf piece with
      | none => simp [own]
      | some pair =>
          change rest.foldlM assignField (structed.set pair.1 pair.2) = some object ↔ _
          rw [ih, List.filterMap_cons_some own]
          simp [own, Dict.setAll]

theorem field_of_isSome_iff (piece : List Char) :
    (fieldOf piece).isSome ↔ piece.count '=' = 1 := by
  have parts := Text.length_splitOn '=' (squeeze piece)
  have kept : (squeeze piece).count '=' = piece.count '=' := by
    unfold squeeze
    exact List.count_filter (by decide)
  rw [kept] at parts
  unfold fieldOf
  split
  · rename_i k v two
    rw [two] at parts
    have count : 2 = piece.count '=' + 1 := parts
    have one : piece.count '=' = 1 := by omega
    simp [one]
  · rename_i more
    constructor
    · intro found
      cases found
    · intro one
      rw [one] at parts
      obtain ⟨k, v, two⟩ := List.length_eq_two.mp parts
      exact absurd two (more k v)

theorem field_of_labelled (label value : List Char) (plainLabel : '=' ∉ label)
    (plainValue : '=' ∉ value) :
    fieldOf (label ++ '=' :: value) = some (squeeze label, .text (squeeze value)) := by
  have whole : squeeze (label ++ '=' :: value) = squeeze label ++ '=' :: squeeze value := by
    simp [squeeze]
  have noLabel : '=' ∉ squeeze label := fun inside => plainLabel (List.mem_of_mem_filter inside)
  have noValue : '=' ∉ squeeze value := fun inside => plainValue (List.mem_of_mem_filter inside)
  unfold fieldOf
  rw [whole, List.splitOn_append_cons_self_of_not_mem noLabel,
    List.splitOn_eq_singleton noValue]

namespace Header

/-- The task prints as one word: nothing after its leading blanks is blank. -/
def TaskWhole (header : Header) : Prop :=
  ∀ c ∈ header.task.dropWhile Text.isSpace, Text.isSpace c = false

instance decidableTaskWhole (header : Header) : Decidable header.TaskWhole :=
  inferInstanceAs (Decidable (∀ c ∈ header.task.dropWhile Text.isSpace, _))

def taskWord (header : Header) : List Char :=
  header.task.dropWhile Text.isSpace ++ '-' :: Text.decimal header.pid.toInt

def members (header : Header) : List (List Char × Value) :=
  let parts := (Text.cutLast ['-'] header.taskWord).getD ([], [])
  [("comm".toList, .text parts.1), ("pid".toList, .text parts.2),
    ("cpu".toList, .number header.cpu), ("irqs_off".toList, .text (header.flags.take 1)),
    ("need_resched".toList, .text ((header.flags.drop 1).take 1)),
    ("ctx".toList, .text ((header.flags.drop 2).take 1)),
    ("preempt_depth".toList, .text ((header.flags.drop 3).take 1)),
    ("timestamp".toList, .text header.timestamp)]

def object (header : Header) : Object := Dict.empty.setAll header.members

end Header

theorem decimal_solid (n : Int) (c : Char) (member : c ∈ Text.decimal n) :
    Text.isSpace c = false := by
  rcases Text.mem_decimal n c member with sign | digit
  · rw [sign]
    decide
  · have range : 48 ≤ c.toNat ∧ c.toNat ≤ 57 := Char.isDigit_iff_toNat.mp digit
    unfold Text.isSpace
    simp
    omega

theorem digit_solid {c : Char} (digit : c.isDigit = true) : Text.isSpace c = false := by
  have range : 48 ≤ c.toNat ∧ c.toNat ≤ 57 := Char.isDigit_iff_toNat.mp digit
  unfold Text.isSpace
  simp
  omega

theorem cpu_digits (header : Header) (c : Char)
    (member : c ∈ List.replicate header.cpuZeros '0' ++ Nat.toDigits 10 header.cpu) :
    c.isDigit = true := by
  rcases List.mem_append.mp member with zero | digit
  · rw [List.eq_of_mem_replicate zero]
    decide
  · exact Text.digits_are_digits header.cpu c digit

theorem cpu_column_solid (header : Header) (c : Char) (member : c ∈ header.cpuColumn) :
    Text.isSpace c = false := by
  unfold Header.cpuColumn at member
  rcases List.mem_append.mp member with front | last
  · rcases List.mem_cons.mp front with bracket | digit
    · rw [bracket]
      decide
    · exact digit_solid (cpu_digits header c digit)
  · rw [List.mem_singleton.mp last]
    decide

/-- The columns are the task's words and three more, the last of which goes on
with whatever follows. -/
theorem words_columns (header : Header) (tail : List Char)
    (solid : ∀ c ∈ tail, Text.isSpace c = false) :
    Text.words Text.isSpace (header.columns ++ tail) =
      Text.words Text.isSpace header.taskColumn ++
        [header.cpuColumn, header.flags, header.timestamp ++ tail] := by
  have blank : Text.isSpace ' ' = true := by decide
  have cpu := Text.words_solid header.cpuColumn (cpu_column_solid header) (by simp [Header.cpuColumn])
  have flags := Text.words_solid header.flags header.flagsSolid (by
    intro none
    have four := header.fourFlags
    rw [none] at four
    cases four)
  have time := Text.words_solid (header.timestamp ++ tail) (by
    intro c member
    rcases List.mem_append.mp member with inTime | inTail
    · exact header.timestampSolid c inTime
    · exact solid c inTail) (by simp [header.timestampPrinted])
  unfold Header.columns
  simp only [List.append_assoc, List.cons_append]
  rw [Text.words_append _ _ blank, Text.words_blanks _ _ blank, Text.words_append _ _ blank,
    Text.words_blanks _ _ blank, Text.words_append _ _ blank, Text.words_blanks _ _ blank,
    cpu, flags, time]
  rfl

theorem task_column_words (header : Header) : Text.words Text.isSpace header.taskColumn ≠ [] := by
  apply Text.words_ne_nil header.taskColumn (c := '-') _ (by decide)
  unfold Header.taskColumn
  exact List.mem_append_right _ List.mem_cons_self

theorem task_column_one_iff (header : Header) :
    (∃ word, Text.words Text.isSpace header.taskColumn = [word]) ↔ header.TaskWhole := by
  have solid : ∀ c ∈ '-' :: Text.decimal header.pid.toInt, Text.isSpace c = false := by
    intro c member
    rcases List.mem_cons.mp member with sign | digit
    · rw [sign]
      decide
    · exact decimal_solid _ c digit
  unfold Header.taskColumn
  rw [List.append_assoc, Text.words_blanks _ _ (by decide)]
  exact Text.words_one_iff header.task _ solid (by simp)

theorem task_column_word (header : Header) (whole : header.TaskWhole) :
    Text.words Text.isSpace header.taskColumn = [header.taskWord] := by
  have parts : header.task.takeWhile Text.isSpace ++ header.taskWord =
      header.task ++ '-' :: Text.decimal header.pid.toInt := by
    unfold Header.taskWord
    rw [← List.append_assoc, List.takeWhile_append_dropWhile]
  have solid : ∀ c ∈ header.taskWord, Text.isSpace c = false := by
    intro c member
    rcases List.mem_append.mp member with inTask | inPid
    · exact whole c inTask
    · rcases List.mem_cons.mp inPid with sign | digit
      · rw [sign]
        decide
      · exact decimal_solid _ c digit
  have dropped : ∀ (front : List Char), (∀ c ∈ front, Text.isSpace c = true) →
      Text.words Text.isSpace (front ++ header.taskWord) = [header.taskWord] := by
    intro front
    induction front with
    | nil =>
        intro _
        exact Text.words_solid header.taskWord solid (by simp [Header.taskWord])
    | cons c front ih =>
        intro blanks
        rw [List.cons_append, Text.words_cons _ (blanks c List.mem_cons_self)]
        exact ih fun other member => blanks other (List.mem_cons_of_mem c member)
  unfold Header.taskColumn
  rw [List.append_assoc, Text.words_blanks _ _ (by decide), ← parts]
  exact dropped _ fun c member => List.mem_takeWhile_imp member

theorem cpu_column_value (header : Header) :
    pyInt (Text.strip ']' (Text.strip '[' header.cpuColumn)) = some header.cpu := by
  have digits := cpu_digits header
  have value := Text.natOf_zeros_digits header.cpuZeros header.cpu
  unfold Header.cpuColumn
  generalize List.replicate header.cpuZeros '0' ++ Nat.toDigits 10 header.cpu = s at digits value
  have noDigit : ∀ c : Char, c.isDigit = false → c ∉ s := by
    intro c other member
    rw [digits c member] at other
    cases other
  have opened : Text.strip '[' ('[' :: s ++ [']']) = s ++ [']'] :=
    Text.strip_cons_self (s ++ [']']) (by simp [noDigit '[' (by decide)])
  rw [opened, Text.strip_append_self s (noDigit ']' (by decide))]
  have nonempty : s ≠ [] := by
    intro none
    rw [none] at value
    cases value
  obtain ⟨first, rest, same⟩ := List.exists_cons_of_ne_nil nonempty
  have firstDigit : first.isDigit = true := digits first (by rw [same]; exact List.mem_cons_self)
  have front : s.dropWhile Text.isSpace = s := by
    rw [same]
    exact List.dropWhile_cons_of_neg (by rw [digit_solid firstDigit]; decide)
  have back : s.rdropWhile Text.isSpace = s := by
    apply List.rdropWhile_eq_self_iff.mpr
    intro some
    rw [digit_solid (digits _ (List.getLast_mem some))]
    decide
  have parts : s.splitOn '_' = [s] := List.splitOn_eq_singleton (noDigit '_' (by decide))
  have kept : s.filter (· ≠ '_') = s := by
    apply List.filter_eq_self.mpr
    intro c member
    simp only [ne_eq, decide_not, Bool.not_eq_eq_eq_not, Bool.not_true, decide_eq_false_iff_not]
    intro underscore
    rw [underscore] at member
    exact noDigit '_' (by decide) member
  have noMinus : ∀ other, s ≠ '-' :: other := by
    intro other minus
    exact noDigit '-' (by decide) (by rw [minus]; exact List.mem_cons_self)
  have noPlus : ∀ other, s ≠ '+' :: other := by
    intro other plus
    exact noDigit '+' (by decide) (by rw [plus]; exact List.mem_cons_self)
  unfold pyInt
  rw [front, back]
  dsimp only
  split
  · rename_i other
    exact absurd rfl (noMinus other)
  · rename_i other
    exact absurd rfl (noPlus other)
  · rw [parts, kept, value, if_neg (by simpa using nonempty.symm)]
    rfl

theorem four_flags (header : Header) :
    ∃ irqsOff needResched ctx preemptDepth,
      header.flags = [irqsOff, needResched, ctx, preemptDepth] := by
  have four := header.fourFlags
  cases flags : header.flags with
  | nil =>
      rw [flags] at four
      cases four
  | cons irqsOff rest =>
      rw [flags, List.length_cons] at four
      obtain ⟨a, b, c, others⟩ := List.length_eq_three.mp (Nat.succ.inj four)
      exact ⟨irqsOff, a, b, c, by rw [others]⟩

theorem task_word_cut (header : Header) :
    ∃ parts, Text.cutLast ['-'] header.taskWord = some parts := by
  cases found : Text.cutLast ['-'] header.taskWord with
  | none =>
      have absent := (Text.cut_last_none_iff (by simp) _).mp found
      apply absurd _ absent
      exact ⟨header.task.dropWhile Text.isSpace, Text.decimal header.pid.toInt, by
        simp [Header.taskWord]⟩
  | some parts => exact ⟨parts, rfl⟩

theorem rsplit_line (columns event text : List Char) (oneWord : ' ' ∉ event)
    (plain : ¬[':', ' '] <:+: text) :
    Text.rsplit [':', ' '] 2
        (columns ++ ':' :: ' ' :: (event ++ ':' :: ' ' :: (text ++ ['\n']))) =
      [columns, event, text ++ ['\n']] := by
  have noneInEvent : ¬[':', ' '] <:+: event := by
    intro inside
    exact oneWord (inside.subset (by simp))
  have noneAtEnd : ¬[':', ' '] <:+: text ++ ['\n'] := by
    rw [Text.infix_append_cons _ (by decide)]
    intro inside
    rcases inside with inText | inNothing
    · exact plain inText
    · exact Text.pair_not_infix [] List.not_mem_nil inNothing
  have outer := Text.cut_last_pair ':' ' ' (by decide) (columns ++ ':' :: ' ' :: event)
    (text ++ ['\n']) noneAtEnd
  have inner := Text.cut_last_pair ':' ' ' (by decide) columns event noneInEvent
  have whole : columns ++ ':' :: ' ' :: (event ++ ':' :: ' ' :: (text ++ ['\n'])) =
      (columns ++ ':' :: ' ' :: event) ++ ':' :: ' ' :: (text ++ ['\n']) := by
    simp
  rw [whole, Text.rsplit, outer]
  dsimp only
  rw [Text.rsplit, inner]
  rfl

/-- The cut of a line whose text has one: what is taken for the columns goes on
behind the event name. -/
theorem rsplit_shifted (columns event text : List Char) (present : [':', ' '] <:+: text) :
    ∃ rest other data, Text.rsplit [':', ' '] 2
        (columns ++ ':' :: ' ' :: (event ++ ':' :: ' ' :: (text ++ ['\n']))) =
      [columns ++ ':' :: ' ' :: (event ++ rest), other, data] := by
  obtain ⟨front, back, split⟩ := present
  have whole : columns ++ ':' :: ' ' :: (event ++ ':' :: ' ' :: (text ++ ['\n'])) =
      (columns ++ ':' :: ' ' :: (event ++ ':' :: ' ' :: front)) ++
        ':' :: ' ' :: (back ++ ['\n']) := by
    rw [← split]
    simp
  obtain ⟨more, data, outer⟩ := Text.cut_last_after ':' ' ' (by decide)
    (columns ++ ':' :: ' ' :: (event ++ ':' :: ' ' :: front)) (back ++ ['\n'])
  have remaining : columns ++ ':' :: ' ' :: (event ++ ':' :: ' ' :: front) ++ more =
      (columns ++ ':' :: ' ' :: event) ++ ':' :: ' ' :: (front ++ more) := by
    simp
  obtain ⟨rest, other, inner⟩ := Text.cut_last_after ':' ' ' (by decide)
    (columns ++ ':' :: ' ' :: event) (front ++ more)
  refine ⟨rest, other, data, ?_⟩
  rw [whole, Text.rsplit, outer]
  dsimp only
  rw [remaining, Text.rsplit, inner]
  simp [Text.rsplit]

section EncodeLine

variable (header : Header) (event text : List Char)

theorem line_parts : header.line event text =
    header.columns ++ ':' :: ' ' :: (event ++ ':' :: ' ' :: (text ++ ['\n'])) := by
  have colon : ": ".toList = [':', ' '] := rfl
  have newline : "\n".toList = ['\n'] := rfl
  unfold Header.line
  rw [colon, newline]
  simp

theorem encode_shifted (oneWord : ∀ c ∈ event, Text.isSpace c = false) (named : event ≠ [])
    (present : [':', ' '] <:+: text) : encodeLine (header.line event text) = none := by
  have blank : Text.isSpace ' ' = true := by decide
  obtain ⟨rest, other, data, cut⟩ := rsplit_shifted header.columns event text present
  have columns : header.columns ++ ':' :: ' ' :: (event ++ rest) =
      (header.columns ++ [':']) ++ ' ' :: (event ++ rest) := by
    simp
  have words := words_columns header [':'] (by decide)
  obtain ⟨first, member⟩ := List.exists_mem_of_ne_nil event named
  have more := Text.words_ne_nil (event ++ rest) (List.mem_append_left rest member)
    (oneWord first member)
  have rejoined := Text.split_joined_words (header.columns ++ ':' :: ' ' :: (event ++ rest))
    blank (by rw [columns, Text.words_append _ _ blank, words]; simp)
  have many : 5 ≤ (Text.words Text.isSpace
      (header.columns ++ ':' :: ' ' :: (event ++ rest))).length := by
    rw [columns, Text.words_append _ _ blank, words, List.length_append, List.length_append]
    have first := List.length_pos_of_ne_nil (task_column_words header)
    have last := List.length_pos_of_ne_nil more
    simp only [List.length_cons, List.length_nil]
    omega
  have separator : ": ".toList = [':', ' '] := rfl
  unfold encodeLine
  rw [line_parts, separator, cut]
  dsimp only
  rw [rejoined]
  split
  · rename_i four
    rw [four] at many
    simp only [List.length_cons, List.length_nil] at many
    omega
  · rfl

theorem columns_split :
    ([' '].intercalate (Text.words Text.isSpace header.columns)).splitOn ' ' =
      Text.words Text.isSpace header.taskColumn ++
        [header.cpuColumn, header.flags, header.timestamp] := by
  have words := words_columns header [] (by simp)
  rw [List.append_nil, List.append_nil] at words
  rw [Text.split_joined_words header.columns (by decide) (by rw [words]; simp), words]

variable (oneWord : ' ' ∉ event) (plain : ¬[':', ' '] <:+: text)

include oneWord plain

theorem encode_whole (oneLine : '\n' ∉ text) (whole : header.TaskWhole) :
    encodeLine (header.line event text) =
      (text.splitOn ',').foldlM assignField header.object := by
  have separator : ": ".toList = [':', ' '] := rfl
  have columns := columns_split header
  rw [task_column_word header whole] at columns
  obtain ⟨irqsOff, needResched, ctx, preemptDepth, flags⟩ := four_flags header
  obtain ⟨parts, task⟩ := task_word_cut header
  unfold encodeLine
  rw [line_parts, separator, rsplit_line header.columns event text oneWord plain]
  dsimp only
  rw [columns]
  dsimp only [List.cons_append, List.nil_append]
  rw [Text.rsplit, task]
  dsimp only [Text.rsplit, List.cons_append, List.nil_append]
  rw [cpu_column_value, Text.strip_append_self text oneLine]
  unfold Header.object Header.members
  rw [task, flags]
  rfl

theorem encode_broken (broken : ¬header.TaskWhole) :
    encodeLine (header.line event text) = none := by
  have separator : ": ".toList = [':', ' '] := rfl
  unfold encodeLine
  rw [line_parts, separator, rsplit_line header.columns event text oneWord plain]
  dsimp only
  rw [columns_split]
  split
  · rename_i taskPid cpu sched timestamp four
    have length := congrArg List.length four
    rw [List.length_append] at length
    obtain ⟨word, one⟩ := List.length_eq_one_iff.mp (Nat.add_right_cancel length)
    exact absurd ((task_column_one_iff header).mp ⟨word, one⟩) broken
  · rfl

end EncodeLine

/-- A line is encoded exactly when its task is one word, its text has no ": ",
and every piece between two commas is an assignment; the object has the
columns and then these assignments. -/
theorem encode_line_iff (header : Header) (event text : List Char) (object : Object)
    (oneWord : ∀ c ∈ event, Text.isSpace c = false) (named : event ≠ [])
    (oneLine : '\n' ∉ text) :
    encodeLine (header.line event text) = some object ↔
      header.TaskWhole ∧ ¬[':', ' '] <:+: text ∧
        (∀ piece ∈ text.splitOn ',', (fieldOf piece).isSome) ∧
        header.object.setAll ((text.splitOn ',').filterMap fieldOf) = object := by
  have noBlank : ' ' ∉ event := by
    intro inside
    have solid := oneWord ' ' inside
    cases solid
  by_cases present : [':', ' '] <:+: text
  · rw [encode_shifted header event text oneWord named present]
    simp [present]
  · by_cases whole : header.TaskWhole
    · rw [encode_whole header event text noBlank present oneLine whole, assign_fields_iff]
      simp [whole, present]
    · rw [encode_broken header event text noBlank present whole]
      simp [whole]

end WPerf.Trace
