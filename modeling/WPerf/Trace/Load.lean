import WPerf.Analyzer.Events
import WPerf.Trace.Encode

/-!
# Loading encoded lines

`LoadSwitch` and `LoadSoft`: the file is split at newlines, the last piece is
dropped, and every piece is decoded into a record. The JSON decoder goes
through the members in order, compares their names with the field tags without
regard to case, and fails if one member cannot be stored; such a line is
skipped.
-/

namespace WPerf.Trace

open WPerf.Library
open WPerf.Analyzer (Switch Soft)

set_option autoImplicit false

/-- Case folding of member names: ASCII letters, and the one other character
that folds to a letter of some tag. -/
def foldChar (c : Char) : Char :=
  if 'A' ≤ c ∧ c ≤ 'Z' then Char.ofNat (c.toNat + 32)
  else if c = '\u017f' then 's'
  else c

def foldName (name : List Char) : List Char := name.map foldChar

def plainInt : Value → Option Int64
  | .number n => if Int64.minValue.toInt ≤ n ∧ n ≤ Int64.maxValue.toInt then some (.ofInt n) else none
  | .text _ => none

/-- A field of kind `int` with the option `string` takes a text holding a
number, or holding `null`, which leaves the field as it is. -/
def quotedInt (old : Int64) : Value → Option Int64
  | .number _ => none
  | .text s =>
      if s = "null".toList then some old
      else (Text.intOf s).bind fun n => plainInt (.number n)

def quotedUint (old : UInt64) : Value → Option UInt64
  | .number _ => none
  | .text s =>
      if s = "null".toList then some old
      else (Text.natOf s).bind fun n => if n < UInt64.size then some (.ofNat n) else none

def plainString : Value → Option String
  | .text s => some (String.ofList s)
  | .number _ => none

theorem decimal_not_null (n : Int) : Text.decimal n ≠ "null".toList := by
  intro same
  have member : 'n' ∈ Text.decimal n := by
    rw [same]
    decide
  rcases Text.mem_decimal n 'n' member with sign | digit
  · cases sign
  · cases digit

theorem quoted_int_decimal (old : Int64) (n : Int32) :
    quotedInt old (.text (Text.decimal n.toInt)) = some n.toInt64 := by
  unfold quotedInt
  dsimp only
  rw [if_neg (decimal_not_null n.toInt), Text.intOf_decimal]
  have low := n.le_toInt
  have high := n.toInt_lt
  have range : Int64.minValue.toInt ≤ n.toInt ∧ n.toInt ≤ Int64.maxValue.toInt := by
    have smallest : Int64.minValue.toInt = -2 ^ 63 := by decide
    have largest : Int64.maxValue.toInt = 2 ^ 63 - 1 := by decide
    rw [smallest, largest]
    omega
  change (if _ then _ else _) = _
  rw [if_pos range, Int64.ofInt_int32ToInt]

/-- A signed number reads into an unsigned field unless it is negative. -/
theorem quoted_uint_decimal (old : UInt64) (n : Int) (fits : n < 2 ^ 64) :
    quotedUint old (.text (Text.decimal n)) =
      if n < 0 then none else some (UInt64.ofNat n.toNat) := by
  unfold quotedUint
  dsimp only
  rw [if_neg (decimal_not_null n), Text.natOf_decimal]
  split_ifs with negative
  · rfl
  · have bound : n.toNat < UInt64.size := by
      change n.toNat < 2 ^ 64
      omega
    change (if _ then _ else _) = _
    rw [if_pos bound]

theorem quoted_uint_time (old n : UInt64) :
    quotedUint old (.text (Text.decimal n.toNat)) = some n := by
  have bound := n.toNat_lt
  rw [quoted_uint_decimal old n.toNat (by omega), if_neg (by omega), Int.toNat_natCast,
    UInt64.ofNat_toNat]

theorem quoted_uint_state (old : UInt64) (n : Int64) :
    quotedUint old (.text (Text.decimal n.toInt)) =
      if n < 0 then none else some n.toUInt64 := by
  have high := n.toInt_lt
  rw [quoted_uint_decimal old n.toInt (by omega)]
  have sign : n < 0 ↔ n.toInt < 0 := Int64.lt_iff_toInt_lt
  by_cases negative : n < 0
  · rw [if_pos negative, if_pos (sign.mp negative)]
  · rw [if_neg negative, if_neg fun below => negative (sign.mpr below)]
    congr 1
    apply UInt64.toNat_inj.mp
    have below := n.toNatClampNeg_lt
    rw [Int64.toNat_toInt, Int64.toNat_toUInt64_of_le (Int64.not_lt.mp negative),
      UInt64.toNat_ofNat_of_lt' (by change _ < 2 ^ 64; omega)]

/-- Storing one member in a `Switch`. A member without a field is ignored. -/
def setSwitchMember (e : Switch) (member : List Char × Value) : Option Switch :=
  let name := foldName member.1
  let value := member.2
  if name = "cpu".toList then (plainInt value).map fun v => { e with cpu := v }
  else if name = "tsc".toList then (quotedUint e.time value).map fun v => { e with time := v }
  else if name = "type".toList then (quotedInt e.type value).map fun v => { e with type := v }
  else if name = "prev_pid".toList then
    (quotedInt e.prevPid value).map fun v => { e with prevPid := v }
  else if name = "next_pid".toList then
    (quotedInt e.nextPid value).map fun v => { e with nextPid := v }
  else if name = "prev_state".toList then
    (quotedUint e.prevState value).map fun v => { e with prevState := v }
  else if name = "next_state".toList then
    (quotedUint e.nextState value).map fun v => { e with nextState := v }
  else if name = "prev_comm".toList then (plainString value).map fun v => { e with prevComm := v }
  else if name = "next_comm".toList then (plainString value).map fun v => { e with nextComm := v }
  else if name = "in_which_ctx".toList then
    (quotedInt e.inWhichCtx value).map fun v => { e with inWhichCtx := v }
  else some e

def setSoftMember (e : Soft) (member : List Char × Value) : Option Soft :=
  let name := foldName member.1
  let value := member.2
  if name = "cpu".toList then (plainInt value).map fun v => { e with cpu := v }
  else if name = "begin_time".toList then
    (quotedUint e.stime value).map fun v => { e with stime := v }
  else if name = "end_time".toList then
    (quotedUint e.etime value).map fun v => { e with etime := v }
  else some e

def zeroSwitch : Switch := ⟨0, 0, 0, 0, 0, 0, 0, "", "", 0⟩

def zeroSoft : Soft := ⟨0, 0, 0⟩

def unmarshalSwitch (json : JsonCodec) (l : List Char) : Option Switch := do
  let members ← json.decode l
  members.foldlM setSwitchMember zeroSwitch

def unmarshalSoft (json : JsonCodec) (l : List Char) : Option Soft := do
  let members ← json.decode l
  members.foldlM setSoftMember zeroSoft

def fileLines (bs : List Char) : List (List Char) := (bs.splitOn '\n').dropLast

def decodeSwitch (json : JsonCodec) (bs : List Char) : List Switch :=
  (fileLines bs).filterMap (unmarshalSwitch json)

/-- `LoadSwitch`: `sort.Sort` leaves some order by time of the same entries. -/
def LoadsSwitch (json : JsonCodec) (bs : List Char) (es : List Switch) : Prop :=
  es.Perm (decodeSwitch json bs) ∧ es.Pairwise fun a b => a.time ≤ b.time

def loadSoft (json : JsonCodec) (bs : List Char) : List Soft :=
  (fileLines bs).filterMap (unmarshalSoft json)

end WPerf.Trace
