import WPerf.Trace.Parsed

/-!
# Names between the fields

A printed name stands unescaped among the fields. Up to its first comma it is
the value of its own field, and every further piece of it is read as a field
of its own: the name forges that field. A text of fields is read exactly when
its values hold no ": ", their own parts hold no '=' and their further pieces
hold one each.
-/

namespace WPerf.Trace

open WPerf.Library

set_option autoImplicit false

def ownPart (value : List Char) : List Char := (value.splitOn ',').headD []

/-- The pieces of a value that are read as fields of their own. -/
def forged (value : List Char) : List (List Char) := (value.splitOn ',').tail

def forgeries (value : List Char) : List (List Char × Value) := (forged value).filterMap fieldOf

/-- A value that makes no field unreadable. -/
structure Reads (value : List Char) : Prop where
  noColon : ¬[':', ' '] <:+: value
  own : '=' ∉ ownPart value
  pieces : ∀ piece ∈ forged value, piece.count '=' = 1

theorem reads_iff (value : List Char) :
    Reads value ↔ ¬[':', ' '] <:+: value ∧ '=' ∉ ownPart value ∧
      ∀ piece ∈ forged value, piece.count '=' = 1 :=
  ⟨fun reads => ⟨reads.noColon, reads.own, reads.pieces⟩,
    fun parts => ⟨parts.1, parts.2.1, parts.2.2⟩⟩

instance decidableReads (value : List Char) : Decidable (Reads value) :=
  decidable_of_iff' _ (reads_iff value)

theorem split_value (value : List Char) : value.splitOn ',' = ownPart value :: forged value := by
  obtain ⟨part, parts, pieces⟩ := List.exists_cons_of_ne_nil (List.splitOn_ne_nil ',' value)
  unfold ownPart forged
  rw [pieces]
  rfl

theorem plain_value (value : List Char) (noComma : ',' ∉ value) :
    ownPart value = value ∧ forged value = [] := by
  unfold ownPart forged
  rw [List.splitOn_eq_singleton noComma]
  exact ⟨rfl, rfl⟩

theorem plain_reads (value : List Char) (noColon : ':' ∉ value) (noComma : ',' ∉ value)
    (noEqual : '=' ∉ value) : Reads value := by
  obtain ⟨own, none⟩ := plain_value value noComma
  constructor
  · exact Text.pair_not_infix value noColon
  · rw [own]
    exact noEqual
  · intro piece member
    rw [none] at member
    exact absurd member List.not_mem_nil

theorem decimal_plain (n : Int) (c : Char) (noDigit : c.isDigit = false) (noSign : c ≠ '-') :
    c ∉ Text.decimal n := by
  intro member
  rcases Text.mem_decimal n c member with sign | digit
  · exact noSign sign
  · rw [digit] at noDigit
    cases noDigit

theorem decimal_reads (n : Int) : Reads (Text.decimal n) :=
  plain_reads _ (decimal_plain n ':' (by decide) (by decide))
    (decimal_plain n ',' (by decide) (by decide)) (decimal_plain n '=' (by decide) (by decide))

structure Field where
  label : List Char
  value : List Char

def PlainLabel (label : List Char) : Prop :=
  ':' ∉ label ∧ ',' ∉ label ∧ '=' ∉ label ∧ '\n' ∉ label

instance decidablePlainLabel (label : List Char) : Decidable (PlainLabel label) :=
  inferInstanceAs (Decidable (_ ∧ _))

def Field.Labelled (field : Field) : Prop := PlainLabel field.label

def Field.text (field : Field) : List Char := field.label ++ '=' :: field.value

def Field.assignments (field : Field) : List (List Char × Value) :=
  (squeeze field.label, .text (squeeze (ownPart field.value))) :: forgeries field.value

def fieldsText (fields : List Field) : List Char := [','].intercalate (fields.map Field.text)

namespace Field

theorem split_text (field : Field) (labelled : field.Labelled) :
    field.text.splitOn ',' =
      (field.label ++ '=' :: ownPart field.value) :: forged field.value := by
  have front : ',' ∉ field.label ++ ['='] := by
    simpa using labelled.2.1
  have whole : field.text = (field.label ++ ['=']) ++ field.value := by
    simp [Field.text]
  rw [whole, Text.splitOn_append ',' _ _ front, split_value]
  simp

theorem colon_text (field : Field) (labelled : field.Labelled) :
    [':', ' '] <:+: field.text ↔ [':', ' '] <:+: field.value := by
  have front : ':' ∉ field.label ++ ['='] := by
    simpa using labelled.1
  have whole : field.text = (field.label ++ ['=']) ++ field.value := by
    simp [Field.text]
  rw [whole, Text.pair_infix_append _ _ front]

/-- Every piece of a field is an assignment exactly when the value's own part
has no '=' and its further pieces have one. -/
theorem pieces_iff (field : Field) (labelled : field.Labelled) :
    (∀ piece ∈ field.text.splitOn ',', (fieldOf piece).isSome) ↔
      '=' ∉ ownPart field.value ∧ ∀ piece ∈ forged field.value, piece.count '=' = 1 := by
  have count : (field.label ++ '=' :: ownPart field.value).count '=' =
      (ownPart field.value).count '=' + 1 := by
    rw [List.count_append, List.count_cons_self, List.count_eq_zero_of_not_mem labelled.2.2.1,
      Nat.zero_add]
  rw [field.split_text labelled, List.forall_mem_cons, field_of_isSome_iff, count]
  apply and_congr
  · rw [Nat.add_eq_right, List.count_eq_zero]
  · constructor
    · intro all piece member
      exact (field_of_isSome_iff piece).mp (all piece member)
    · intro all piece member
      exact (field_of_isSome_iff piece).mpr (all piece member)

theorem assignments_eq (field : Field) (labelled : field.Labelled)
    (own : '=' ∉ ownPart field.value) :
    (field.text.splitOn ',').filterMap fieldOf = field.assignments := by
  rw [field.split_text labelled,
    List.filterMap_cons_some (field_of_labelled field.label _ labelled.2.2.1 own)]
  rfl

end Field

theorem newline_not_joined (parts : List (List Char)) (each : ∀ part ∈ parts, '\n' ∉ part) :
    '\n' ∉ [','].intercalate parts := by
  induction parts with
  | nil => simp
  | cons part rest ih =>
      cases rest with
      | nil => simpa using each
      | cons next rest =>
          have later := ih fun other member => each other (List.mem_cons_of_mem part member)
          rw [List.intercalate_cons_cons]
          simpa [each part List.mem_cons_self] using later

section Labelled

variable (fields : List Field) (labelled : ∀ field ∈ fields, field.Labelled)

include labelled

theorem newline_not_in_fields (oneLine : ∀ field ∈ fields, '\n' ∉ field.value) :
    '\n' ∉ fieldsText fields := by
  apply newline_not_joined
  intro text member inside
  obtain ⟨field, listed, same⟩ := List.mem_map.mp member
  rw [← same] at inside
  rcases List.mem_append.mp inside with inLabel | inValue
  · exact (labelled field listed).2.2.2 inLabel
  · rcases List.mem_cons.mp inValue with equal | further
    · cases equal
    · exact oneLine field listed further

theorem colon_fields_iff :
    [':', ' '] <:+: fieldsText fields ↔ ∃ field ∈ fields, [':', ' '] <:+: field.value := by
  unfold fieldsText
  rw [Text.pair_infix_joined (by decide) (by decide)]
  constructor
  · intro ⟨text, member, inside⟩
    obtain ⟨field, listed, same⟩ := List.mem_map.mp member
    rw [← same, field.colon_text (labelled field listed)] at inside
    exact ⟨field, listed, inside⟩
  · intro ⟨field, listed, inside⟩
    rw [← field.colon_text (labelled field listed)] at inside
    exact ⟨field.text, List.mem_map_of_mem listed, inside⟩

theorem all_read_iff :
    ((¬∃ field ∈ fields, [':', ' '] <:+: field.value) ∧
      ∀ piece ∈ fields.flatMap fun field => field.text.splitOn ',', (fieldOf piece).isSome) ↔
      ∀ field ∈ fields, Reads field.value := by
  constructor
  · intro ⟨noColon, all⟩ field listed
    have own := (field.pieces_iff (labelled field listed)).mp fun piece member =>
      all piece (List.mem_flatMap.mpr ⟨field, listed, member⟩)
    exact ⟨fun inside => noColon ⟨field, listed, inside⟩, own.1, own.2⟩
  · intro reads
    constructor
    · intro ⟨field, listed, inside⟩
      exact (reads field listed).noColon inside
    · intro piece member
      obtain ⟨field, listed, inField⟩ := List.mem_flatMap.mp member
      exact (field.pieces_iff (labelled field listed)).mpr
        ⟨(reads field listed).own, (reads field listed).pieces⟩ piece inField

theorem pieces_assign (reads : ∀ field ∈ fields, Reads field.value) :
    (fields.flatMap fun field => field.text.splitOn ',').filterMap fieldOf =
      fields.flatMap Field.assignments := by
  rw [List.filterMap_flatMap]
  apply List.flatMap_congr
  intro field listed
  exact field.assignments_eq (labelled field listed) (reads field listed).own

end Labelled

/-- A line of fields is encoded exactly when its task is one word and all its
values read; the object holds the columns and then all assignments. -/
theorem encode_fields_iff (header : Header) (event : List Char) (fields : List Field)
    (object : Object) (oneWord : ∀ c ∈ event, Text.isSpace c = false) (named : event ≠ [])
    (nonempty : fields ≠ []) (labelled : ∀ field ∈ fields, field.Labelled)
    (oneLine : ∀ field ∈ fields, '\n' ∉ field.value) :
    encodeLine (header.line event (fieldsText fields)) = some object ↔
      header.TaskWhole ∧ (∀ field ∈ fields, Reads field.value) ∧
        header.object.setAll (fields.flatMap Field.assignments) = object := by
  have noNewline := newline_not_in_fields fields labelled oneLine
  have pieces : (fieldsText fields).splitOn ',' =
      fields.flatMap fun field => field.text.splitOn ',' := by
    unfold fieldsText
    rw [Text.splitOn_joined ',' _ (by simpa using nonempty), List.flatMap_map]
  rw [encode_line_iff header event _ object oneWord named noNewline,
    colon_fields_iff fields labelled, pieces]
  apply and_congr_right
  intro _
  rw [← and_assoc, all_read_iff fields labelled]
  apply and_congr_right
  intro reads
  rw [pieces_assign fields labelled reads]

end WPerf.Trace
