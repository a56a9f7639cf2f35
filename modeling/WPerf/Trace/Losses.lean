import WPerf.Library.Fallible
import WPerf.Trace.Forgery
import WPerf.Trace.Json

/-!
# Lines that are lost

The encoder drops a line it cannot read and the loader drops an object with a
member it cannot store, both without a word. A printed record survives exactly
when its line is legible, both states are non-negative, and nothing that its
names say of some field is refused by that field.
-/

namespace WPerf.Trace

open WPerf.Library
open WPerf.Analyzer (Switch)

set_option autoImplicit false

def intTags : List (List Char) :=
  ["type".toList, "prev_pid".toList, "next_pid".toList, "in_which_ctx".toList]

def uintTags : List (List Char) := ["tsc".toList, "prev_state".toList, "next_state".toList]

structure Storable (tag s : List Char) : Prop where
  cpu : tag ≠ "cpu".toList
  int : tag ∈ intTags → s = "null".toList ∨ ∃ n, Text.intOf s = some n ∧ -2 ^ 63 ≤ n ∧ n < 2 ^ 63
  uint : tag ∈ uintTags → s = "null".toList ∨ ∃ n, Text.natOf s = some n ∧ n < 2 ^ 64

theorem quoted_int_isSome_iff (old : Int64) (s : List Char) :
    (quotedInt old (.text s)).isSome ↔
      s = "null".toList ∨ ∃ n, Text.intOf s = some n ∧ -2 ^ 63 ≤ n ∧ n < 2 ^ 63 := by
  have smallest : Int64.minValue.toInt = -2 ^ 63 := by decide
  have largest : Int64.maxValue.toInt = 2 ^ 63 - 1 := by decide
  unfold quotedInt plainInt
  dsimp only
  rw [smallest, largest]
  generalize "null".toList = word
  by_cases null : s = word
  · simp [null]
  · rw [if_neg null]
    cases Text.intOf s with
    | none => simp [null]
    | some n =>
        rw [Option.bind_some, Option.isSome_ite]
        simp only [null, false_or, Option.some.injEq, exists_eq_left']
        omega

theorem quoted_uint_isSome_iff (old : UInt64) (s : List Char) :
    (quotedUint old (.text s)).isSome ↔
      s = "null".toList ∨ ∃ n, Text.natOf s = some n ∧ n < 2 ^ 64 := by
  unfold quotedUint
  dsimp only
  generalize "null".toList = word
  by_cases null : s = word
  · simp [null]
  · rw [if_neg null]
    cases Text.natOf s with
    | none => simp [null]
    | some n =>
        rw [Option.bind_some, Option.isSome_ite]
        simp only [null, false_or, Option.some.injEq, exists_eq_left']
        rfl

theorem storable_iff (tag s : List Char) (noCpu : tag ≠ "cpu".toList) :
    Storable tag s ↔ (tag ∈ intTags → (quotedInt 0 (.text s)).isSome) ∧
      (tag ∈ uintTags → (quotedUint 0 (.text s)).isSome) := by
  rw [quoted_int_isSome_iff, quoted_uint_isSome_iff]
  constructor
  · exact fun storable => ⟨storable.int, storable.uint⟩
  · exact fun fits => ⟨noCpu, fits.1, fits.2⟩

/-- Whether a text can be stored does not depend on what is stored already. -/
theorem set_switch_isSome_iff (e : Switch) (key s : List Char) :
    (setSwitchMember e (key, .text s)).isSome ↔ Storable (foldName key) s := by
  unfold setSwitchMember
  simp only [apply_ite Option.isSome, Option.isSome_map]
  generalize foldName key = tag
  have int : ∀ old, tag ≠ "cpu".toList → tag ∈ intTags → tag ∉ uintTags →
      ((quotedInt old (.text s)).isSome ↔ Storable tag s) := by
    intro old noCpu isInt noUint
    rw [storable_iff tag s noCpu, quoted_int_isSome_iff, quoted_int_isSome_iff]
    exact ⟨fun fits => ⟨fun _ => fits, fun isUint => absurd isUint noUint⟩, fun fits => fits.1 isInt⟩
  have uint : ∀ old, tag ≠ "cpu".toList → tag ∈ uintTags → tag ∉ intTags →
      ((quotedUint old (.text s)).isSome ↔ Storable tag s) := by
    intro old noCpu isUint noInt
    rw [storable_iff tag s noCpu, quoted_uint_isSome_iff, quoted_uint_isSome_iff]
    exact ⟨fun fits => ⟨fun isInt => absurd isInt noInt, fun _ => fits⟩, fun fits => fits.2 isUint⟩
  have free : tag ≠ "cpu".toList → tag ∉ intTags → tag ∉ uintTags → Storable tag s :=
    fun noCpu noInt noUint =>
      ⟨noCpu, fun isInt => absurd isInt noInt, fun isUint => absurd isUint noUint⟩
  by_cases cpu : tag = "cpu".toList
  · rw [if_pos cpu]
    constructor
    · intro stored
      cases stored
    · exact fun storable => absurd cpu storable.cpu
  rw [if_neg cpu]
  by_cases tsc : tag = "tsc".toList
  · rw [if_pos tsc]
    exact uint _ cpu (by rw [tsc]; decide) (by rw [tsc]; decide)
  rw [if_neg tsc]
  by_cases type : tag = "type".toList
  · rw [if_pos type]
    exact int _ cpu (by rw [type]; decide) (by rw [type]; decide)
  rw [if_neg type]
  by_cases prevPid : tag = "prev_pid".toList
  · rw [if_pos prevPid]
    exact int _ cpu (by rw [prevPid]; decide) (by rw [prevPid]; decide)
  rw [if_neg prevPid]
  by_cases nextPid : tag = "next_pid".toList
  · rw [if_pos nextPid]
    exact int _ cpu (by rw [nextPid]; decide) (by rw [nextPid]; decide)
  rw [if_neg nextPid]
  by_cases prevState : tag = "prev_state".toList
  · rw [if_pos prevState]
    exact uint _ cpu (by rw [prevState]; decide) (by rw [prevState]; decide)
  rw [if_neg prevState]
  by_cases nextState : tag = "next_state".toList
  · rw [if_pos nextState]
    exact uint _ cpu (by rw [nextState]; decide) (by rw [nextState]; decide)
  rw [if_neg nextState]
  by_cases prevComm : tag = "prev_comm".toList
  · rw [if_pos prevComm]
    exact iff_of_true rfl (free cpu (by rw [prevComm]; decide) (by rw [prevComm]; decide))
  rw [if_neg prevComm]
  by_cases nextComm : tag = "next_comm".toList
  · rw [if_pos nextComm]
    exact iff_of_true rfl (free cpu (by rw [nextComm]; decide) (by rw [nextComm]; decide))
  rw [if_neg nextComm]
  by_cases context : tag = "in_which_ctx".toList
  · rw [if_pos context]
    exact int _ cpu (by rw [context]; decide) (by rw [context]; decide)
  rw [if_neg context]
  have noInt : tag ∉ intTags := by
    unfold intTags
    rw [List.mem_cons, List.mem_cons, List.mem_cons, List.mem_singleton, not_or, not_or, not_or]
    exact ⟨type, prevPid, nextPid, context⟩
  have noUint : tag ∉ uintTags := by
    unfold uintTags
    rw [List.mem_cons, List.mem_cons, List.mem_singleton, not_or, not_or]
    exact ⟨tsc, prevState, nextState⟩
  exact iff_of_true rfl (free cpu noInt noUint)

def laterKeys : List (List Char) :=
  ["prev_pid".toList, "next_pid".toList, "prev_state".toList, "next_state".toList,
    "in_which_ctx".toList]

namespace SwitchLine

/-- The line can be read and all its members can be stored. What the names say
of the fields behind them is overwritten and does not count. -/
structure Survives (line : SwitchLine) : Prop where
  legible : line.Legible
  prevState : 0 ≤ line.entry.prevState
  nextState : 0 ≤ line.entry.nextState
  strays : ∀ key s, key ∉ laterKeys → said key line.strays = some s → Storable (foldName key) s

def AllStored (line : SwitchLine) : Prop :=
  ∀ key value, line.encoded.get? key = some value →
    (setSwitchMember zeroSwitch (key, value)).isSome

theorem encoded_source (line : SwitchLine) (legible : line.Legible) (key : List Char)
    (value : Value) (found : line.encoded.get? key = some value) :
    (key, value) ∈ line.back ∨ (key, value) ∈ line.middle ++ line.front ++ line.header.members ∨
      key ∉ laterKeys ∧ ∃ s, said key line.strays = some s ∧ value = .text s := by
  have strays := line.last_strays legible key
  have told : ∀ stray, (said key line.strays).map Value.text = some stray →
      ∃ s, said key line.strays = some s ∧ stray = .text s := by
    intro stray mapped
    obtain ⟨s, same, text⟩ := Option.map_eq_some_iff.mp mapped
    exact ⟨s, same, text.symm⟩
  cases last : Dict.last key line.back with
  | some printed =>
      rw [line.encoded_behind key printed last, Option.some_inj] at found
      rw [← found]
      exact Or.inl (Dict.mem_of_last key printed line.back last)
  | none =>
      have before : key ∉ laterKeys := (Dict.last_none_iff key line.back).mp last
      right
      rw [line.encoded_get, last, Option.none_or, Option.or_eq_some_iff, Option.or_eq_some_iff,
        Option.or_eq_some_iff, Option.or_eq_some_iff] at found
      rcases found with next | ⟨noNext, middle | ⟨_, prev | ⟨_, front | ⟨_, column⟩⟩⟩⟩
      · rw [next, Option.some_or] at strays
        exact Or.inr ⟨before, told value strays.symm⟩
      · exact Or.inl (List.mem_append_left _ (List.mem_append_left _
          (Dict.mem_of_last key value _ middle)))
      · rw [noNext, prev, Option.none_or] at strays
        exact Or.inr ⟨before, told value strays.symm⟩
      · exact Or.inl (List.mem_append_left _ (List.mem_append_right _
          (Dict.mem_of_last key value _ front)))
      · unfold Header.object at column
        rw [Dict.get_set_all] at column
        have listed : Dict.last key line.header.members = some value := by
          rcases Option.or_eq_some_iff.mp column with inMembers | ⟨_, inEmpty⟩
          · exact inMembers
          · cases inEmpty
        exact Or.inl (List.mem_append_right _ (Dict.mem_of_last key value _ listed))

theorem printed_stored (line : SwitchLine) (key : List Char) (value : Value)
    (member : (key, value) ∈ line.middle ++ line.front ++ line.header.members) :
    (setSwitchMember zeroSwitch (key, value)).isSome := by
  have type : (setSwitchMember zeroSwitch
      ("type".toList, .text (Text.decimal line.entry.type.toInt))).isSome := by
    change ((quotedInt 0 _).map _).isSome
    rw [quoted_int_decimal]
    rfl
  have tsc : (setSwitchMember zeroSwitch
      ("tsc".toList, .text (Text.decimal line.entry.tsc.toNat))).isSome := by
    change ((quotedUint 0 _).map _).isSome
    rw [quoted_uint_time]
    rfl
  have cpu : (setSwitchMember zeroSwitch ("cpu".toList, .number line.header.cpu)).isSome := by
    change ((plainInt (.number line.header.cpu)).map _).isSome
    rw [cpu_number]
    rfl
  have all : ∀ pair ∈ line.middle ++ line.front ++ line.header.members,
      (setSwitchMember zeroSwitch pair).isSome := by
    unfold middle front Header.members
    simp only [List.cons_append, List.nil_append, List.forall_mem_cons]
    exact ⟨rfl, type, tsc, rfl, rfl, rfl, cpu, rfl, rfl, rfl, rfl, rfl, by simp⟩
  exact all (key, value) member

/-- The fields behind the names can be stored exactly when both states are
non-negative. -/
theorem back_stored_iff (line : SwitchLine) :
    (∀ pair ∈ line.back, (setSwitchMember zeroSwitch pair).isSome) ↔
      0 ≤ line.entry.prevState ∧ 0 ≤ line.entry.nextState := by
  have int : ∀ n : Int32, (quotedInt 0 (.text (Text.decimal n.toInt))).isSome := by
    intro n
    rw [quoted_int_decimal]
    rfl
  have state : ∀ n : Int64, (quotedUint 0 (.text (Text.decimal n.toInt))).isSome ↔ 0 ≤ n := by
    intro n
    rw [quoted_uint_state, ← Int64.not_lt]
    split_ifs with negative <;> simp [negative]
  have prevPid : (setSwitchMember zeroSwitch
      ("prev_pid".toList, .text (Text.decimal line.entry.prevPid.toInt))).isSome := by
    change ((quotedInt 0 _).map _).isSome
    rw [Option.isSome_map]
    exact int line.entry.prevPid
  have nextPid : (setSwitchMember zeroSwitch
      ("next_pid".toList, .text (Text.decimal line.entry.nextPid.toInt))).isSome := by
    change ((quotedInt 0 _).map _).isSome
    rw [Option.isSome_map]
    exact int line.entry.nextPid
  have context : (setSwitchMember zeroSwitch
      ("in_which_ctx".toList, .text (Text.decimal line.entry.inWhichCtx.toInt))).isSome := by
    change ((quotedInt 0 _).map _).isSome
    rw [Option.isSome_map]
    exact int line.entry.inWhichCtx
  have prevState : (setSwitchMember zeroSwitch
      ("prev_state".toList, .text (Text.decimal line.entry.prevState.toInt))).isSome ↔
        0 ≤ line.entry.prevState := by
    change ((quotedUint 0 _).map _).isSome ↔ _
    rw [Option.isSome_map]
    exact state line.entry.prevState
  have nextState : (setSwitchMember zeroSwitch
      ("next_state".toList, .text (Text.decimal line.entry.nextState.toInt))).isSome ↔
        0 ≤ line.entry.nextState := by
    change ((quotedUint 0 _).map _).isSome ↔ _
    rw [Option.isSome_map]
    exact state line.entry.nextState
  unfold back
  simp only [List.forall_mem_cons, prevPid, nextPid, context, prevState, nextState]
  simp

theorem all_stored_iff (line : SwitchLine) (legible : line.Legible) :
    line.AllStored ↔ line.Survives := by
  have states := line.back_stored_iff
  constructor
  · intro stored
    have back : ∀ pair ∈ line.back, (setSwitchMember zeroSwitch pair).isSome := by
      have printed : ∀ pair ∈ line.back, Dict.last pair.1 line.back = some pair.2 := by
        unfold SwitchLine.back
        simp only [List.forall_mem_cons]
        exact ⟨rfl, rfl, rfl, rfl, rfl, by simp⟩
      intro pair member
      exact stored pair.1 pair.2 (line.encoded_behind pair.1 pair.2 (printed pair member))
    refine ⟨legible, (states.mp back).1, (states.mp back).2, ?_⟩
    intro key s before told
    have noBack : Dict.last key line.back = none := (Dict.last_none_iff key line.back).mpr before
    by_cases second : key = "next_comm".toList
    · rw [second]
      exact ⟨by decide, fun int => absurd int (by decide), fun uint => absurd uint (by decide)⟩
    · have noMiddle : Dict.last key line.middle = none := by
        apply (Dict.last_none_iff key line.middle).mpr
        intro inMiddle
        exact second (List.mem_singleton.mp inMiddle)
      have held := line.encoded_before legible key noBack noMiddle
      rw [told, Option.map_some, Option.some_or] at held
      exact (set_switch_isSome_iff zeroSwitch key s).mp (stored key (.text s) held)
  · intro survives key value found
    rcases line.encoded_source legible key value found with inBack | printed | stray
    · exact states.mpr ⟨survives.prevState, survives.nextState⟩ (key, value) inBack
    · exact line.printed_stored key value printed
    · obtain ⟨before, s, told, text⟩ := stray
      rw [text]
      exact (set_switch_isSome_iff zeroSwitch key s).mpr (survives.strays key s before told)

theorem set_member_isSome (e : Switch) (member : List Char × Value) :
    (setSwitchMember e member).isSome = (setSwitchMember zeroSwitch member).isSome := by
  obtain ⟨key, value⟩ := member
  cases value with
  | text s => rw [Bool.eq_iff_iff, set_switch_isSome_iff, set_switch_isSome_iff]
  | number n =>
      unfold setSwitchMember
      simp only [apply_ite Option.isSome, Option.isSome_map, quotedInt, quotedUint]
      rfl

theorem received_isSome_iff (line : SwitchLine) (printable : line.AllPrintable) :
    (receivedSwitch line.print).isSome ↔ line.Survives := by
  have stored : (line.encoded.entries.foldlM setSwitchMember zeroSwitch).isSome ↔
      line.AllStored := by
    rw [Fallible.foldlM_isSome_iff setSwitchMember
      (fun member => (setSwitchMember zeroSwitch member).isSome)
      (fun e member => by rw [set_member_isSome])]
    constructor
    · intro all key value found
      exact all (key, value) ((Dict.mem_entries_iff _ key value).mpr found)
    · intro all member listed
      exact all member.1 member.2 ((Dict.mem_entries_iff _ member.1 member.2).mp listed)
  unfold receivedSwitch
  cases made : encodeLine line.print with
  | none =>
      have illegible : ¬line.Legible := by
        intro legible
        have encoded := (switch_line_iff line printable line.encoded).mpr ⟨legible, rfl⟩
        rw [made] at encoded
        cases encoded
      constructor
      · intro received
        cases received
      · exact fun survives => absurd survives.legible illegible
  | some object =>
      obtain ⟨legible, same⟩ := (switch_line_iff line printable object).mp made
      rw [Option.bind_some, ← same, ← line.all_stored_iff legible]
      exact stored

end SwitchLine

theorem loads_switch_exists (json : JsonCodec) (bs : List Char) : ∃ es, LoadsSwitch json bs es := by
  let le (a b : Switch) : Bool := decide (a.time ≤ b.time)
  have transitive : ∀ a b c, le a b → le b c → le a c := by
    intro a b c first second
    simp only [le, decide_eq_true_eq] at first second ⊢
    exact UInt64.le_trans first second
  have total : ∀ a b, le a b || le b a := by
    intro a b
    simp only [le, Bool.or_eq_true, decide_eq_true_eq]
    exact UInt64.le_total a.time b.time
  have sorted := List.pairwise_mergeSort transitive total (decodeSwitch json bs)
  refine ⟨(decodeSwitch json bs).mergeSort le, List.mergeSort_perm _ le, ?_⟩
  exact sorted.imp fun before => of_decide_eq_true before

/-- The loader gets one entry for every record exactly when every line
survives. -/
theorem no_event_lost_iff (json : JsonCodec) (lines : List SwitchLine)
    (printable : ∀ line ∈ lines, line.AllPrintable) :
    (∀ es, LoadsSwitch json (encode json (lines.map SwitchLine.print)) es →
        es.length = lines.length) ↔
      ∀ line ∈ lines, line.Survives := by
  have received : decodeSwitch json (encode json (lines.map SwitchLine.print)) =
      lines.filterMap fun line => receivedSwitch line.print := by
    rw [decode_encode, List.filterMap_map]
    rfl
  have whole : (decodeSwitch json (encode json (lines.map SwitchLine.print))).length =
      lines.length ↔ ∀ line ∈ lines, line.Survives := by
    rw [received, List.filterMap_length_eq_length]
    constructor
    · intro all line member
      exact (line.received_isSome_iff (printable line member)).mp (all line member)
    · intro all line member
      exact (line.received_isSome_iff (printable line member)).mpr (all line member)
  rw [← whole]
  constructor
  · intro every
    obtain ⟨es, loads⟩ := loads_switch_exists json (encode json (lines.map SwitchLine.print))
    rw [← loads.1.length_eq]
    exact every es loads
  · intro same es loads
    rw [loads.1.length_eq, same]

theorem forged_time_not_lost :
    ¬∃ es, LoadsSwitch Json.codec
        (encode Json.codec ([switchedTo "a, tsc=90"].map SwitchLine.print)) es ∧
      es.length ≠ [switchedTo "a, tsc=90"].length := by
  intro ⟨es, loads, other⟩
  apply other
  apply (no_event_lost_iff Json.codec [switchedTo "a, tsc=90"] _).mpr _ es loads
  · intro line member
    rw [List.mem_singleton.mp member]
    exact ⟨by decide, by decide, by decide⟩
  · intro line member
    rw [List.mem_singleton.mp member]
    refine ⟨⟨by decide, by decide, by decide⟩, by decide, by decide, ?_⟩
    intro key s _ told
    have strays : (switchedTo "a, tsc=90").strays = [" tsc=90".toList] := by decide
    rw [strays, said, said, Option.none_or,
      value_of_parts key _ "tsc".toList "90".toList (by decide) (by decide) (by decide)] at told
    split_ifs at told with same
    rw [← same, ← Option.some.inj told]
    exact ⟨by decide, fun int => absurd int (by decide), fun _ => Or.inr ⟨90, by decide, by decide⟩⟩

def webContentLine : SwitchLine :=
  ⟨.sample "Web Content", .switchTo,
    ⟨0, 55, .named "Web Content", .named "swapper/3", 7, 0, 1, 0, 12⟩⟩

theorem web_content_lost :
    ∃ es, LoadsSwitch Json.codec (encode Json.codec ([webContentLine].map SwitchLine.print)) es ∧
      es.length ≠ 1 := by
  have printable : webContentLine.AllPrintable := ⟨by decide, by decide, by decide⟩
  have lost : receivedSwitch webContentLine.print = none := by
    rw [← Option.not_isSome_iff_eq_none, webContentLine.received_isSome_iff printable]
    intro survives
    exact absurd survives.legible.task (by decide)
  refine ⟨[], ?_, by decide⟩
  unfold LoadsSwitch
  rw [decode_encode, List.map_singleton, List.filterMap_cons_none lost]
  exact ⟨List.Perm.refl [], List.Pairwise.nil⟩

end WPerf.Trace
