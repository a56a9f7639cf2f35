import WPerf.Trace.Encode

/-!
# JSON text of an object

The encoder's text for objects of strings and integers, and a reader of it: a
pair of functions as `JsonCodec` asks for. Of the characters that the Python
encoder escapes, only the quote, the backslash and the newline are escaped
here, so for printable ASCII strings the text is Python's.
-/

namespace WPerf.Trace.Json

open WPerf.Library

set_option autoImplicit false

def escape (c : Char) : List Char :=
  if c = '"' then ['\\', '"']
  else if c = '\\' then ['\\', '\\']
  else if c = '\n' then ['\\', 'n']
  else [c]

def quote (s : List Char) : List Char := '"' :: s.flatMap escape ++ ['"']

def readString : Bool → List Char → Option (List Char × List Char)
  | _, [] => none
  | true, c :: rest =>
      (readString false rest).map fun read => ((if c = 'n' then '\n' else c) :: read.1, read.2)
  | false, c :: rest =>
      if c = '"' then some ([], rest)
      else if c = '\\' then readString true rest
      else (readString false rest).map fun read => (c :: read.1, read.2)

def valueText : Value → List Char
  | .text s => quote s
  | .number n => Text.decimal n

def inNumeral (c : Char) : Bool := c == '-' || c.isDigit

def readValue : List Char → Option (Value × List Char)
  | '"' :: rest => (readString false rest).map fun read => (.text read.1, read.2)
  | s => (Text.intOf (s.takeWhile inNumeral)).map fun n => (.number n, s.dropWhile inNumeral)

def memberText (member : List Char × Value) : List Char :=
  quote member.1 ++ ':' :: ' ' :: valueText member.2

def membersText : List (List Char × Value) → List Char
  | [] => ['}']
  | [member] => memberText member ++ ['}']
  | member :: rest => memberText member ++ ',' :: ' ' :: membersText rest

def readMember (s : List Char) : Option ((List Char × Value) × List Char) := do
  let '"' :: s := s | none
  let (key, s) ← readString false s
  let ':' :: ' ' :: s := s | none
  let (value, s) ← readValue s
  return ((key, value), s)

def readMembers : Nat → List Char → Option (List (List Char × Value))
  | 0, _ => none
  | fuel + 1, s => do
      let (member, s) ← readMember s
      match s with
      | ['}'] => return [member]
      | ',' :: ' ' :: s => return member :: (← readMembers fuel s)
      | _ => none

def encodeText (members : List (List Char × Value)) : List Char := '{' :: membersText members

def decodeText : List Char → Option (List (List Char × Value))
  | ['{', '}'] => some []
  | '{' :: s => readMembers s.length s
  | _ => none

theorem read_escaped (c : Char) (rest : List Char) :
    readString false (escape c ++ rest) =
      (readString false rest).map fun read => (c :: read.1, read.2) := by
  unfold escape
  split_ifs with isQuote isBackslash isNewline
  · rw [isQuote]
    rfl
  · rw [isBackslash]
    rfl
  · rw [isNewline]
    rfl
  · rw [List.singleton_append, readString, if_neg isQuote, if_neg isBackslash]

theorem read_string_body (s rest : List Char) :
    readString false (s.flatMap escape ++ '"' :: rest) = some (s, rest) := by
  induction s with
  | nil => rfl
  | cons c s ih =>
      rw [List.flatMap_cons, List.append_assoc, read_escaped, ih]
      rfl

theorem read_quoted (s rest : List Char) :
    ∃ body, quote s ++ rest = '"' :: body ∧ readString false body = some (s, rest) := by
  refine ⟨s.flatMap escape ++ '"' :: rest, ?_, read_string_body s rest⟩
  simp [quote]

/-- A value is read back if what follows it is not part of a numeral. -/
theorem read_value_text (value : Value) (c : Char) (rest : List Char)
    (ends : inNumeral c = false) :
    readValue (valueText value ++ c :: rest) = some (value, c :: rest) := by
  cases value with
  | text s =>
      obtain ⟨body, whole, read⟩ := read_quoted s (c :: rest)
      change readValue (quote s ++ c :: rest) = _
      rw [whole, readValue, read]
      rfl
  | number n =>
      have numeral : ∀ d ∈ Text.decimal n, inNumeral d = true := by
        intro d member
        rcases Text.mem_decimal n d member with sign | digit
        · simp [inNumeral, sign]
        · simp [inNumeral, digit]
      have taken : (Text.decimal n ++ c :: rest).takeWhile inNumeral = Text.decimal n := by
        rw [List.takeWhile_append_of_pos numeral, List.takeWhile_cons_of_neg (by simp [ends]),
          List.append_nil]
      have dropped : (Text.decimal n ++ c :: rest).dropWhile inNumeral = c :: rest := by
        rw [List.dropWhile_append_of_pos numeral, List.dropWhile_cons_of_neg (by simp [ends])]
      have noQuote : ∀ s, Text.decimal n ++ c :: rest ≠ '"' :: s := by
        intro s same
        cases digits : Text.decimal n with
        | nil =>
            have value := Text.intOf_decimal n
            rw [digits] at value
            cases value
        | cons d ds =>
            rw [digits] at same
            have first := numeral d (by rw [digits]; exact List.mem_cons_self)
            rw [(List.cons.inj same).1] at first
            cases first
      change readValue (Text.decimal n ++ c :: rest) = _
      rw [readValue.eq_2 _ noQuote, taken, dropped, Text.intOf_decimal]
      rfl

theorem read_member_text (member : List Char × Value) (c : Char) (rest : List Char)
    (ends : inNumeral c = false) :
    readMember (memberText member ++ c :: rest) = some (member, c :: rest) := by
  obtain ⟨body, whole, read⟩ :=
    read_quoted member.1 (':' :: ' ' :: (valueText member.2 ++ c :: rest))
  have text : memberText member ++ c :: rest = '"' :: body := by
    rw [← whole, memberText, List.append_assoc]
    rfl
  unfold readMember
  rw [text]
  change (readString false body >>= _) = _
  rw [read]
  change (readValue (valueText member.2 ++ c :: rest) >>= _) = _
  rw [read_value_text member.2 c rest ends]
  rfl

theorem read_members_text (members : List (List Char × Value)) (nonempty : members ≠ [])
    (fuel : Nat) (enough : members.length ≤ fuel) :
    readMembers fuel (membersText members) = some members := by
  induction members generalizing fuel with
  | nil => exact absurd rfl nonempty
  | cons member rest ih =>
      cases fuel with
      | zero => cases enough
      | succ fuel =>
          cases rest with
          | nil =>
              unfold membersText readMembers
              rw [read_member_text member '}' [] (by decide)]
              rfl
          | cons next rest =>
              have later := ih (by simp) fuel (Nat.le_of_succ_le_succ enough)
              rw [membersText, readMembers, read_member_text member ',' _ (by decide)]
              · change (readMembers fuel (membersText (next :: rest)) >>= _) = _
                rw [later]
                rfl
              · simp

theorem members_text_length (members : List (List Char × Value)) :
    members.length ≤ (membersText members).length := by
  induction members with
  | nil => simp
  | cons member rest ih =>
      cases rest with
      | nil => simp [membersText]
      | cons next rest =>
          rw [membersText, List.length_append, List.length_cons]
          · simp only [List.length_cons] at ih ⊢
            omega
          · simp

theorem decode_text (members : List (List Char × Value)) :
    decodeText (encodeText members) = some members := by
  cases members with
  | nil => rfl
  | cons member rest =>
      have read := read_members_text (member :: rest) (by simp) _ (members_text_length _)
      have notEmpty : membersText (member :: rest) ≠ ['}'] := by
        intro same
        rw [same] at read
        cases read
      unfold encodeText
      rw [decodeText.eq_2 _ notEmpty]
      exact read

theorem escape_one_line (c : Char) : '\n' ∉ escape c := by
  unfold escape
  split_ifs with isQuote isBackslash isNewline
  · decide
  · decide
  · decide
  · rw [List.mem_singleton]
    exact fun same => isNewline same.symm

theorem quote_one_line (s : List Char) : '\n' ∉ quote s := by
  unfold quote
  simp only [List.cons_append, List.mem_cons, List.mem_append, List.mem_flatMap, List.not_mem_nil,
    or_false, not_or]
  refine ⟨by decide, ?_, by decide⟩
  intro inside
  obtain ⟨c, _, newline⟩ := inside
  exact escape_one_line c newline

theorem member_one_line (member : List Char × Value) : '\n' ∉ memberText member := by
  have value : '\n' ∉ valueText member.2 := by
    cases member.2 with
    | text s => exact quote_one_line s
    | number n =>
        intro newline
        rcases Text.mem_decimal n '\n' newline with sign | digit
        · cases sign
        · cases digit
  unfold memberText
  simp [quote_one_line, value]

theorem members_one_line (members : List (List Char × Value)) : '\n' ∉ membersText members := by
  induction members with
  | nil => decide
  | cons member rest ih =>
      cases rest with
      | nil => simp [membersText, member_one_line]
      | cons next rest => simpa [membersText, member_one_line] using ih

/-- The encoder and the reader, as a codec. -/
def codec : JsonCodec where
  encode object := encodeText object.entries
  decode := decodeText
  oneLine object := by
    unfold encodeText
    simp [members_one_line]
  decodeEncode object := decode_text object.entries

end WPerf.Trace.Json
