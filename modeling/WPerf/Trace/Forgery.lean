import WPerf.Trace.Lines

/-!
# Numbers that a name forges

The loop over the fields lets the last assignment to a key win. The five
fields printed behind the names therefore keep the record's numbers whatever
the names hold. The type, the time and the CPU stand before the names, and
each keeps its number unless the last piece of a name that says otherwise
says something else.
-/

namespace WPerf.Trace

open WPerf.Library

set_option autoImplicit false

def valueOf (key piece : List Char) : Option (List Char) :=
  if (key ++ ['=']) <+: squeeze piece then some ((squeeze piece).drop (key.length + 1)) else none

/-- What the last of the pieces that says anything of a key says of it. -/
def said (key : List Char) : List (List Char) → Option (List Char)
  | [] => none
  | piece :: rest => (said key rest).or (valueOf key piece)

theorem count_squeeze (piece : List Char) : (squeeze piece).count '=' = piece.count '=' := by
  unfold squeeze
  exact List.count_filter (by decide)

theorem field_of_parts (piece : List Char) (one : piece.count '=' = 1) :
    ∃ label value, '=' ∉ label ∧ '=' ∉ value ∧ squeeze piece = label ++ '=' :: value ∧
      fieldOf piece = some (label, .text value) := by
  have present : '=' ∈ squeeze piece := by
    apply List.count_pos_iff.mp
    rw [count_squeeze, one]
    exact Nat.one_pos
  obtain ⟨label, value, whole, fresh⟩ := List.eq_append_cons_of_mem present
  have counts := count_squeeze piece
  rw [whole, one, List.count_append, List.count_cons_self, List.count_eq_zero_of_not_mem fresh]
    at counts
  have noMore : '=' ∉ value := List.count_eq_zero.mp (by omega)
  refine ⟨label, value, fresh, noMore, whole, ?_⟩
  unfold fieldOf
  rw [whole, List.splitOn_append_cons_self_of_not_mem fresh, List.splitOn_eq_singleton noMore]

theorem value_of_parts (key piece label value : List Char) (plainLabel : '=' ∉ label)
    (plainValue : '=' ∉ value) (whole : squeeze piece = label ++ '=' :: value) :
    valueOf key piece = if label = key then some value else none := by
  unfold valueOf
  rw [whole]
  by_cases same : label = key
  · rw [if_pos same, same]
    have front : key ++ ['='] <+: key ++ '=' :: value := ⟨value, by simp⟩
    rw [if_pos front]
    simp
  · rw [if_neg same, if_neg]
    intro ⟨rest, joined⟩
    rw [List.append_assoc, List.singleton_append] at joined
    have counts := congrArg (List.count '=') joined
    rw [List.count_append, List.count_cons_self, List.count_append, List.count_cons_self,
      List.count_eq_zero_of_not_mem plainLabel, List.count_eq_zero_of_not_mem plainValue] at counts
    have plainKey : '=' ∉ key := List.count_eq_zero.mp (by omega)
    have parts := congrArg (List.splitOn '=') joined
    rw [List.splitOn_append_cons_self_of_not_mem plainKey,
      List.splitOn_append_cons_self_of_not_mem plainLabel] at parts
    exact same (List.cons.inj parts).1.symm

theorem last_said (key : List Char) (pieces : List (List Char))
    (single : ∀ piece ∈ pieces, piece.count '=' = 1) :
    Dict.last key (pieces.filterMap fieldOf) = (said key pieces).map Value.text := by
  induction pieces with
  | nil => rfl
  | cons piece rest ih =>
      have later := ih fun other member => single other (List.mem_cons_of_mem piece member)
      obtain ⟨label, value, plainLabel, plainValue, whole, field⟩ :=
        field_of_parts piece (single piece List.mem_cons_self)
      rw [List.filterMap_cons_some field, Dict.last, later, said,
        value_of_parts key piece label value plainLabel plainValue whole, Option.map_or]
      congr 1
      split_ifs <;> rfl

namespace SwitchLine

/-- The pieces of the two names that are read as fields of their own. -/
def strays (line : SwitchLine) : List (List Char) :=
  forged line.entry.prevComm.text ++ forged line.entry.nextComm.text

/-- Where the names say anything of the numbers printed before them, they end
up saying what the record says; the CPU they must not mention. -/
structure Unforged (line : SwitchLine) : Prop where
  type : ∀ value, said "type".toList line.strays = some value →
    value = Text.decimal line.entry.type.toInt
  tsc : ∀ value, said "tsc".toList line.strays = some value →
    value = Text.decimal line.entry.tsc.toNat
  cpu : said "cpu".toList line.strays = none

/-- The numbers of an object are those of the record. -/
structure Honest (line : SwitchLine) (object : Object) : Prop where
  type : object.get? "type".toList = some (.text (Text.decimal line.entry.type.toInt))
  tsc : object.get? "tsc".toList = some (.text (Text.decimal line.entry.tsc.toNat))
  prevPid : object.get? "prev_pid".toList = some (.text (Text.decimal line.entry.prevPid.toInt))
  nextPid : object.get? "next_pid".toList = some (.text (Text.decimal line.entry.nextPid.toInt))
  prevState :
    object.get? "prev_state".toList = some (.text (Text.decimal line.entry.prevState.toInt))
  nextState :
    object.get? "next_state".toList = some (.text (Text.decimal line.entry.nextState.toInt))
  inWhichCtx :
    object.get? "in_which_ctx".toList = some (.text (Text.decimal line.entry.inWhichCtx.toInt))
  cpu : object.get? "cpu".toList = some (.number line.header.cpu)

def encoded (line : SwitchLine) : Object := line.header.object.setAll line.assignments

theorem encoded_get (line : SwitchLine) (key : List Char) :
    line.encoded.get? key = (Dict.last key line.back).or
      ((Dict.last key (forgeries line.entry.nextComm.text)).or ((Dict.last key line.middle).or
        ((Dict.last key (forgeries line.entry.prevComm.text)).or
          ((Dict.last key line.front).or (line.header.object.get? key))))) := by
  unfold encoded assignments
  rw [Dict.get_set_all]
  simp only [Dict.last_append, Option.or_assoc]

theorem encoded_behind (line : SwitchLine) (key : List Char) (value : Value)
    (printed : Dict.last key line.back = some value) : line.encoded.get? key = some value := by
  rw [line.encoded_get, printed, Option.some_or]

theorem last_strays (line : SwitchLine) (legible : line.Legible) (key : List Char) :
    (Dict.last key (forgeries line.entry.nextComm.text)).or
        (Dict.last key (forgeries line.entry.prevComm.text)) =
      (said key line.strays).map Value.text := by
  have single : ∀ piece ∈ line.strays, piece.count '=' = 1 := by
    intro piece member
    rcases List.mem_append.mp member with inPrev | inNext
    · exact legible.prevComm.pieces piece inPrev
    · exact legible.nextComm.pieces piece inNext
  rw [← last_said key line.strays single]
  unfold strays
  rw [List.filterMap_append, Dict.last_append]
  rfl

theorem encoded_before (line : SwitchLine) (legible : line.Legible) (key : List Char)
    (noBack : Dict.last key line.back = none) (noMiddle : Dict.last key line.middle = none) :
    line.encoded.get? key = ((said key line.strays).map Value.text).or
      ((Dict.last key line.front).or (line.header.object.get? key)) := by
  rw [line.encoded_get, noBack, noMiddle, ← line.last_strays legible]
  simp only [Option.none_or, Option.or_assoc]

theorem kept_text_iff (told : Option (List Char)) (own : List Char) :
    (told.map Value.text).or (some (.text own)) = some (.text own) ↔
      ∀ value, told = some value → value = own := by
  cases told with
  | none => simp
  | some value => simp

theorem kept_number_iff (told : Option (List Char)) (own : Int) :
    (told.map Value.text).or (some (.number own)) = some (.number own) ↔ told = none := by
  cases told with
  | none => simp
  | some value => simp

/-- What stands behind the names is read as printed, whatever they hold. -/
theorem honest_iff (line : SwitchLine) (legible : line.Legible) :
    line.Honest line.encoded ↔ line.Unforged := by
  have type := line.encoded_before legible "type".toList rfl rfl
  have tsc := line.encoded_before legible "tsc".toList rfl rfl
  have cpu := line.encoded_before legible "cpu".toList rfl rfl
  have noCpu : Dict.last "cpu".toList line.front = none := rfl
  have cpuColumn : line.header.object.get? "cpu".toList = some (.number line.header.cpu) := by
    unfold Header.object
    rw [Dict.get_set_all]
    rfl
  rw [noCpu, Option.none_or, cpuColumn] at cpu
  constructor
  · intro honest
    constructor
    · exact (kept_text_iff _ _).mp (type.symm.trans honest.type)
    · exact (kept_text_iff _ _).mp (tsc.symm.trans honest.tsc)
    · exact (kept_number_iff _ _).mp (cpu.symm.trans honest.cpu)
  · intro unforged
    constructor
    · exact type.trans ((kept_text_iff _ _).mpr unforged.type)
    · exact tsc.trans ((kept_text_iff _ _).mpr unforged.tsc)
    · exact line.encoded_behind _ _ rfl
    · exact line.encoded_behind _ _ rfl
    · exact line.encoded_behind _ _ rfl
    · exact line.encoded_behind _ _ rfl
    · exact line.encoded_behind _ _ rfl
    · exact cpu.trans ((kept_number_iff _ _).mpr unforged.cpu)

end SwitchLine

/-- Every object of a line has the record's numbers exactly when the names of
a legible line do not say otherwise of the type, the time and the CPU. -/
theorem numbers_unforged_iff (line : SwitchLine) (printable : line.AllPrintable) :
    (∀ object, encodeLine line.print = some object → line.Honest object) ↔
      (line.Legible → line.Unforged) := by
  constructor
  · intro honest legible
    apply (line.honest_iff legible).mp
    apply honest
    exact (switch_line_iff line printable line.encoded).mpr ⟨legible, rfl⟩
  · intro unforged object made
    obtain ⟨legible, same⟩ := (switch_line_iff line printable object).mp made
    rw [← same]
    exact (line.honest_iff legible).mpr (unforged legible)

def switchedTo (name : String) : SwitchLine :=
  ⟨.sample "sshd", .switchTo, ⟨0, 55, .named "sshd", .named name, 7, 9, 0, 0, 12⟩⟩

theorem switched_to_idle_honest :
    (switchedTo "swapper, type=0").Honest (switchedTo "swapper, type=0").encoded := by
  have printable : (switchedTo "swapper, type=0").AllPrintable :=
    ⟨by decide, by decide, by decide⟩
  have legible : (switchedTo "swapper, type=0").Legible := ⟨by decide, by decide, by decide⟩
  apply (numbers_unforged_iff (switchedTo "swapper, type=0") printable).mpr
  · intro _
    exact ⟨by decide, by decide, by decide⟩
  · exact (switch_line_iff _ printable _).mpr ⟨legible, rfl⟩

theorem name_forges_time :
    ∃ object, encodeLine (switchedTo "a,tsc=9").print = some object ∧
      object.get? "tsc".toList ≠ some (.text (Text.decimal 55)) := by
  have legible : (switchedTo "a,tsc=9").Legible := ⟨by decide, by decide, by decide⟩
  refine ⟨(switchedTo "a,tsc=9").encoded, ?_, ?_⟩
  · exact (switch_line_iff _ ⟨by decide, by decide, by decide⟩ _).mpr ⟨legible, rfl⟩
  · rw [SwitchLine.encoded_before _ legible "tsc".toList rfl rfl]
    decide

end WPerf.Trace
