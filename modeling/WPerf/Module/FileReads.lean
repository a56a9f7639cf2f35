import WPerf.Module.Arming

/-!
# Reading the files in pieces

A reader calls `read` on one open file until a call returns 0. The calls of the
enable files go on where the last one stopped. The calls of the filter and
output files return 0 at every offset but the start, so all that a small first
buffer leaves behind is lost.
-/

namespace WPerf.Module

open WPerf.Library

set_option autoImplicit false

def simpleReadFromBuffer (cnt ppos : Nat) (buffer : List Char) : List Char × Nat :=
  let bytes := (buffer.drop ppos).take cnt
  (bytes, ppos + bytes.length)

structure ReadCall where
  cnt : Nat
  memory : Bool
deriving DecidableEq, Repr

section Files

variable {State : Type}

/-- `DEF_READ_GENERIC`, with the file's read operation. -/
def readGeneric (read : State → Except Fault (TraceSeq × State)) (call : ReadCall) (ppos : Nat)
    (state : State) : Except Fault (Except Errno (List Char) × Nat × State) :=
  if ppos ≠ 0 then .ok (.ok [], ppos, state)
  else if ¬call.memory then .ok (.error .enomem, ppos, state)
  else do
    let (seq, state) ← read state
    let (bytes, ppos) := simpleReadFromBuffer call.cnt ppos seq.buffer
    return (.ok bytes, ppos, state)

def enableReadGeneric (read : State → Bool) (call : ReadCall) (ppos : Nat) (state : State) :
    Except Fault (Except Errno (List Char) × Nat × State) :=
  let (bytes, ppos) := simpleReadFromBuffer call.cnt ppos [if read state then '1' else '0', '\n']
  .ok (.ok bytes, ppos, state)

/-- What a reader has when a call returns 0, if one does. It tries again after
an error. -/
def readUntilZero
    (readCall : ReadCall → Nat → State → Except Fault (Except Errno (List Char) × Nat × State)) :
    List ReadCall → Nat → State → Except Fault (Option (List Char))
  | [], _, _ => .ok none
  | call :: rest, ppos, state => do
      let (result, ppos, state) ← readCall call ppos state
      match result with
      | .error _ => readUntilZero readCall rest ppos state
      | .ok [] => return some []
      | .ok bytes => return (← readUntilZero readCall rest ppos state).map (bytes ++ ·)

theorem read_until_zero_cons
    {readCall : ReadCall → Nat → State → Except Fault (Except Errno (List Char) × Nat × State)}
    {call : ReadCall} {rest : List ReadCall} {ppos next : Nat} {state after : State}
    {bytes whole : List Char} (copied : readCall call ppos state = .ok (.ok bytes, next, after))
    (ended : readUntilZero readCall (call :: rest) ppos state = .ok (some whole)) :
    (bytes = [] ∧ whole = []) ∨
      (bytes ≠ [] ∧ ∃ later, readUntilZero readCall rest next after = .ok (some later) ∧
        whole = bytes ++ later) := by
  unfold readUntilZero at ended
  rw [copied] at ended
  cases bytes with
  | nil => exact Or.inl ⟨rfl, (Option.some.inj (Except.ok.inj ended)).symm⟩
  | cons c bytes =>
      change (readUntilZero readCall rest next after >>= _) = _ at ended
      obtain ⟨tail, remaining, joined⟩ := (Fallible.bind_eq_ok_iff _ _ _).mp ended
      obtain ⟨later, same, parts⟩ := Option.map_eq_some_iff.mp (Except.ok.inj joined)
      rw [same] at remaining
      exact Or.inr ⟨List.cons_ne_nil c bytes, later, remaining, parts.symm⟩

theorem take_append_rest (text : List Char) (cnt : Nat) :
    text.take cnt ++ text.drop (text.take cnt).length = text := by
  rcases Nat.le_total cnt text.length with inside | behind
  · rw [List.length_take_of_le inside, List.take_append_drop]
  · rw [List.take_of_length_le behind, List.drop_length, List.append_nil]

theorem enable_rest_read (read : State → Bool) (calls : List ReadCall)
    (roomy : ∀ call ∈ calls, 0 < call.cnt) (ppos : Nat) (state : State) (bytes : List Char)
    (ended : readUntilZero (enableReadGeneric read) calls ppos state = .ok (some bytes)) :
    bytes = [if read state then '1' else '0', '\n'].drop ppos := by
  induction calls generalizing ppos bytes with
  | nil => cases ended
  | cons call rest ih =>
      rw [List.forall_mem_cons] at roomy
      rcases read_until_zero_cons rfl ended with ⟨none, empty⟩ | ⟨_, later, remaining, parts⟩
      · rw [empty]
        have left := (List.take_eq_nil_iff.mp none).resolve_left (Nat.ne_of_gt roomy.1)
        exact left.symm
      · rw [parts, ih roomy.2 _ later remaining, ← List.drop_drop]
        exact take_append_rest _ call.cnt

end Files

inductive TextFile where
  | dutilsFilter
  | dutilsOutput
  | txStatsFilter
  | txStatsOutput
deriving DecidableEq, Repr

def TextFile.read : TextFile → Events → Except Fault (TraceSeq × Events)
  | dutilsFilter, s => do
      let seq ← s.disk.dutilsFilterRead .empty
      return (seq, s)
  | dutilsOutput, s => do
      let (seq, disk) ← s.disk.dutilsOutputRead .empty
      return (seq, { s with disk := disk })
  | txStatsFilter, s => do
      let seq ← s.tx.txStatsFilterRead .empty
      return (seq, s)
  | txStatsOutput, s => do
      let (seq, tx) ← s.tx.txStatsOutputRead .empty
      return (seq, { s with tx := tx })

inductive EnableFile where
  | dutilsEnable
  | txStatsEnable
deriving DecidableEq, Repr

def EnableFile.read : EnableFile → Events → Bool
  | dutilsEnable, s => s.disk.dutilsEnableRead
  | txStatsEnable, s => s.tx.txStatsEnableRead

/-- An enable file is read whole in pieces of any size. -/
theorem enable_pieces_whole (file : EnableFile) (s : Events) (calls : List ReadCall)
    (roomy : ∀ call ∈ calls, 0 < call.cnt) (bytes : List Char)
    (ended : readUntilZero (enableReadGeneric file.read) calls 0 s = .ok (some bytes)) :
    bytes = [if file.read s then '1' else '0', '\n'] :=
  enable_rest_read file.read calls roomy 0 s bytes ended

theorem behind_start_nothing {State : Type} (read : State → Except Fault (TraceSeq × State))
    (calls : List ReadCall) (ppos : Nat) (behind : ppos ≠ 0) (state : State) (bytes : List Char)
    (ended : readUntilZero (readGeneric read) calls ppos state = .ok (some bytes)) : bytes = [] := by
  cases calls with
  | nil => cases ended
  | cons call rest =>
      unfold readUntilZero readGeneric at ended
      rw [if_pos behind] at ended
      exact (Option.some.inj (Except.ok.inj ended)).symm

/-- What a reader has in the end is the whole text exactly when the first call
that finds memory has room for all of it. -/
theorem pieces_whole_iff (file : TextFile) (s t : Events) (seq : TraceSeq)
    (produced : file.read s = .ok (seq, t)) (calls : List ReadCall) (bytes : List Char)
    (ended : readUntilZero (readGeneric file.read) calls 0 s = .ok (some bytes)) :
    bytes = seq.buffer ↔
      ∀ call ∈ calls.find? ReadCall.memory, seq.buffer.length ≤ call.cnt := by
  induction calls with
  | nil => cases ended
  | cons call rest ih =>
      cases found : call.memory with
      | false =>
          have failed : readGeneric file.read call 0 s = .ok (.error .enomem, 0, s) := by
            unfold readGeneric
            rw [if_neg (by simp), if_pos (by rw [found]; decide)]
          unfold readUntilZero at ended
          rw [failed] at ended
          rw [List.find?_cons_of_neg (by rw [found]; decide)]
          exact ih ended
      | true =>
          have copied : readGeneric file.read call 0 s =
              .ok (.ok (seq.buffer.take call.cnt), (seq.buffer.take call.cnt).length, t) := by
            unfold readGeneric
            rw [if_neg (by simp), if_neg (by rw [found]; decide), produced]
            change Except.ok (_, 0 + _, t) = _
            rw [Nat.zero_add]
            rfl
          rw [List.find?_cons_of_pos found]
          have first : bytes = seq.buffer.take call.cnt := by
            rcases read_until_zero_cons copied ended with
              ⟨none, empty⟩ | ⟨some, later, remaining, parts⟩
            · rw [none, empty]
            · have behind := Nat.ne_of_gt (List.length_pos_of_ne_nil some)
              rw [parts, behind_start_nothing file.read rest _ behind t later remaining,
                List.append_nil]
          rw [first, List.take_eq_self_iff]
          simp

theorem none_read_whole :
    ∃ seq t bytes, TextFile.dutilsFilter.read .init = .ok (seq, t) ∧
      readUntilZero (readGeneric TextFile.dutilsFilter.read) [⟨512, true⟩, ⟨512, true⟩] 0 .init =
        .ok (some bytes) ∧
      (bytes = seq.buffer ↔ ∀ call ∈ [⟨512, true⟩, ⟨512, true⟩].find? ReadCall.memory,
        seq.buffer.length ≤ call.cnt) :=
  ⟨⟨"none\n".toList, false⟩, .init, "none\n".toList, rfl, rfl,
    pieces_whole_iff .dutilsFilter .init .init ⟨"none\n".toList, false⟩ rfl
      [⟨512, true⟩, ⟨512, true⟩] "none\n".toList rfl⟩

theorem small_pieces_cut :
    ∃ seq bytes, TextFile.dutilsFilter.read .init = .ok (seq, .init) ∧
      readUntilZero (readGeneric TextFile.dutilsFilter.read) [⟨2, true⟩, ⟨2, true⟩] 0 .init =
        .ok (some bytes) ∧
      bytes ≠ seq.buffer :=
  ⟨⟨"none\n".toList, false⟩, "no".toList, rfl, rfl, by decide⟩

end WPerf.Module
