import WPerf.Library.Text

/-!
# What the module uses of the kernel

String functions of the kernel on NUL-terminated texts, `trace_seq` with the
two functions the module defines for it, and the generic file operations of
the three debugfs files. A memory access outside its object, and a `BUG_ON`
that fires, are faults.
-/

namespace WPerf.Module

open WPerf.Library

set_option autoImplicit false

inductive Fault where
  | outOfBounds
  | bug
deriving DecidableEq, Repr

inductive Errno where
  | einval
  | enomem
  | erange
  | eperm
deriving DecidableEq, Repr

def pageSize : Nat := 4096

def cString (buffer : List Char) : List Char := buffer.takeWhile (· ≠ '\x00')

def isspace (c : Char) : Bool :=
  (decide (9 ≤ c.toNat) && decide (c.toNat ≤ 13)) || c == ' ' || c == '\u00a0'

def strstrip (s : List Char) : List Char := (s.dropWhile isspace).rdropWhile isspace

/-- The tokens that calls of `strsep(&s, ",")` return until it returns NULL. -/
def strsep (s : List Char) : List (List Char) := s.splitOn ','

def filterTokens (data : List Char) : List (List Char) :=
  (strsep (strstrip data)).filter (· ≠ [])

def sameStrncmp (a b : List Char) (count : Nat) : Bool :=
  (cString a).take count == (cString b).take count

def kstrtoul (s : List Char) : Except Errno UInt64 :=
  let s := if s.head? = some '+' then s.tail else s
  match Text.natOf (s.takeWhile Char.isDigit) with
  | none => .error .einval
  | some n =>
      if n < UInt64.size then
        if s.dropWhile Char.isDigit = [] ∨ s.dropWhile Char.isDigit = ['\n'] then .ok (.ofNat n)
        else .error .einval
      else .error .erange

/-- `kstrtoul_from_user(ubuf, cnt, 10, &val)`, which copies 66 characters at
most. -/
def kstrtoulFromUser (ubuf : List Char) : Except Errno UInt64 := kstrtoul (cString (ubuf.take 66))

structure TraceSeq where
  buffer : List Char
  full : Bool
deriving DecidableEq, Repr

namespace TraceSeq

def empty : TraceSeq := ⟨[], false⟩

def puts (s : TraceSeq) (str : List Char) : TraceSeq :=
  if s.full then s
  else if str.length > pageSize - 1 - s.buffer.length then { s with full := true }
  else { s with buffer := s.buffer ++ str }

/-- `trace_seq_printf`: a text that does not fit below `PAGE_SIZE - 1` bytes is
left out and marks the buffer full. -/
def printf (s : TraceSeq) (text : List Char) : TraceSeq :=
  if s.full then s
  else if text.length ≥ pageSize - 1 - s.buffer.length then { s with full := true }
  else { s with buffer := s.buffer ++ text }

def nl (s : TraceSeq) : Except Fault TraceSeq :=
  if s.buffer.length ≤ 1 then .error .bug
  else .ok { s with buffer := s.buffer.dropLast ++ ['\n'] }

/-- The `trace_seq_printf` loop over a list: each entry is followed by a comma,
the last one by a newline. -/
def printList (s : TraceSeq) : List (List Char) → TraceSeq
  | [] => s
  | [entry] => s.printf (entry ++ ['\n'])
  | entry :: rest => (s.printf (entry ++ [','])).printList rest

end TraceSeq

section Files

variable {State : Type}

def enableWriteGeneric (write : Bool → State → Except Fault State) (ubuf : List Char)
    (state : State) : Except Fault (Except Errno Nat × State) :=
  match kstrtoulFromUser ubuf with
  | .error errno => .ok (.error errno, state)
  | .ok val =>
      if val = 0 then do
        let state ← write false state
        return (.ok ubuf.length, state)
      else if val = 1 then do
        let state ← write true state
        return (.ok ubuf.length, state)
      else .ok (.error .einval, state)

/-- `filter_write_generic`. `page` says whether a free page is found. -/
def filterWriteGeneric (write : List Char → State → Except Fault (Except Errno Unit × State))
    (page : Bool) (ubuf : List Char) (state : State) :
    Except Fault (Except Errno Nat × State) :=
  if pageSize ≤ ubuf.length then .ok (.error .einval, state)
  else if ¬page then .ok (.error .enomem, state)
  else do
    let (err, state) ← write (cString ubuf) state
    match err with
    | .ok () => return (.ok ubuf.length, state)
    | .error _ => return (.error .einval, state)

/-- What an enable text switches the event to, if it is accepted. -/
def enableValue (ubuf : List Char) : Option Bool :=
  match kstrtoulFromUser ubuf with
  | .error _ => none
  | .ok val => if val = 0 then some false else if val = 1 then some true else none

theorem enable_write_state (write : Bool → State → Except Fault State) (ubuf : List Char)
    (state : State) :
    (enableWriteGeneric write ubuf state).map Prod.snd =
      match enableValue ubuf with
      | some value => write value state
      | none => .ok state := by
  unfold enableWriteGeneric enableValue
  cases kstrtoulFromUser ubuf with
  | error errno => rfl
  | ok val =>
      dsimp only
      split_ifs
      · change _ = write false state
        cases write false state <;> rfl
      · change _ = write true state
        cases write true state <;> rfl
      · rfl

theorem filter_write_state (write : List Char → State → Except Fault (Except Errno Unit × State))
    (page : Bool) (ubuf : List Char) (state : State) :
    (filterWriteGeneric write page ubuf state).map Prod.snd =
      if ubuf.length < pageSize ∧ page then (write (cString ubuf) state).map Prod.snd
      else .ok state := by
  unfold filterWriteGeneric
  by_cases long : pageSize ≤ ubuf.length
  · rw [if_pos long, if_neg fun fits => Nat.not_lt.mpr long fits.1]
    rfl
  · rw [if_neg long]
    cases page with
    | false => rw [if_pos (by decide), if_neg fun fits => absurd fits.2 (by decide)]; rfl
    | true =>
        rw [if_neg (by decide), if_pos ⟨Nat.lt_of_not_le long, rfl⟩]
        rcases write (cString ubuf) state with fault | ⟨errno | ok, next⟩ <;> rfl

end Files

end WPerf.Module
