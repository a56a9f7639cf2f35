import Mathlib.Algebra.Ring.Nat
import WPerf.Recorder.EventCtx

/-!
# What the copy loop loses

A context is always in one of six phases, in each of which it waits for one
completion at most. While a chunk is in the buffer nothing is read, so what is
written is what was read, but for the ends of chunks that a write left behind.
-/

namespace WPerf.Recorder

open WPerf.Library

set_option autoImplicit false

inductive Phase where
  | opening
  | unopened
  | reading
  | writing (chunk : List UInt8)
  | waiting
  | closed
deriving DecidableEq, Repr

namespace Phase

def held : Phase → List UInt8
  | .writing chunk => chunk
  | _ => []

/-- Whether the next read is submitted with the length as it stands. -/
def reads : Phase → Bool
  | .opening => true
  | .reading => true
  | .waiting => true
  | _ => false

/-- What the loop holds for a context in a phase. -/
def requests (event : EventCtx) : Phase → List Request
  | .opening => [.open]
  | .unopened => []
  | .reading => [.read event.fd0 bufSize]
  | .writing chunk => [.write event.fd1 chunk.length]
  | .waiting => [.retry]
  | .closed => []

/-- What a completion makes of a phase. -/
def next (expired : Bool) : Phase → CopyOp → Option Phase
  | .opening, .opened result => some (if result < 0 then .unopened else .reading)
  | .reading, .read _ _ result bytes =>
      some (if 0 < result then .writing bytes
        else if expired ∨ result ≠ uvEagain then .closed
        else .waiting)
  | .writing _, .written _ _ result => some (if result < 0 then .closed else .reading)
  | .waiting, .retried => some .reading
  | phase, .expired => some phase
  | _, _ => none

end Phase

namespace FileOp

def readFrom (fd : Int) : FileOp → List UInt8
  | .read source bytes => if source = fd then bytes else []
  | _ => []

def writtenTo (fd : Int) : FileOp → List UInt8
  | .write target bytes => if target = fd then bytes else []
  | _ => []

def closed : FileOp → Option Int
  | .close fd => some fd
  | _ => none

end FileOp

namespace EventCtx

def bytesRead (event : EventCtx) : List UInt8 := event.files.flatMap (FileOp.readFrom event.fd0)

def bytesWritten (event : EventCtx) : List UInt8 :=
  event.files.flatMap (FileOp.writtenTo event.fd1)

def closes (event : EventCtx) : List Int := event.files.filterMap FileOp.closed

structure At (event : EventCtx) (phase : Phase) : Prop where
  pending : event.pending = phase.requests event
  len : phase.reads → event.len = bufSize
  chunk : event.buffer.take phase.held.length = phase.held
  writing : phase ≠ .writing []
  unread : phase = .opening → event.files = []
  closes : event.closes = if phase = .closed then [event.fd0, event.fd1] else []

theorem record_event_at (buf : List UInt8) (out : Int) : (recordEvent buf out).At .opening where
  pending := rfl
  len := fun _ => rfl
  chunk := rfl
  writing := by decide
  unread := fun _ => rfl
  closes := rfl

theorem finish_ok (event rest : EventCtx) (phase : Phase) (request : Request)
    (held : event.At phase) (done : event.finish request = .ok rest) :
    phase.requests event = [request] ∧ rest = { event with pending := [] } := by
  have single : ∀ list : List Request, list.length ≤ 1 → request ∈ list → list = [request] := by
    intro list short member
    obtain ⟨only, same⟩ : ∃ only, list = [only] :=
      List.length_eq_one_iff.mp (Nat.le_antisymm short (List.length_pos_of_mem member))
    rw [same] at member ⊢
    rw [List.mem_singleton.mp member]
  have short : (phase.requests event).length ≤ 1 := by
    cases phase <;> simp [Phase.requests]
  unfold finish at done
  split_ifs at done with member
  rw [held.pending] at member done
  have own := single _ short member
  refine ⟨own, ?_⟩
  rw [← Except.ok.inj done, own, List.erase_cons_head]

end EventCtx

def CopyOp.bytes : CopyOp → List UInt8
  | .read _ _ _ bytes => bytes
  | _ => []

def CopyOp.request : CopyOp → Option Request
  | .opened _ => some .open
  | .read fd len _ _ => some (.read fd len)
  | .written fd len _ => some (.write fd len)
  | .retried => some .retry
  | .expired => none

/-- The bytes of a chunk that a completed write left behind. -/
def CopyOp.lost : CopyOp → Nat
  | .written _ len result => len - result.toNat
  | _ => 0

namespace EventCtx

/-- A completion takes a context from a phase to the next, and its bytes are
held, written or left behind. -/
structure Moves (event : EventCtx) (phase : Phase) (op : CopyOp) (t : EventCtx) (next : Phase) :
    Prop where
  stands : t.At next
  read : t.bytesRead = event.bytesRead ++ op.bytes
  kept : op.lost = 0 →
    t.bytesWritten ++ next.held = event.bytesWritten ++ phase.held ++ op.bytes
  count : t.bytesWritten.length + next.held.length + op.lost =
    event.bytesWritten.length + phase.held.length + op.bytes.length

section Files

variable (event : EventCtx) (fd : Int) (bytes : List UInt8)

theorem fill_read : (event.fill event.fd0 bytes).bytesRead = event.bytesRead ++ bytes := by
  simp [bytesRead, fill, FileOp.readFrom]

theorem fill_written : (event.fill fd bytes).bytesWritten = event.bytesWritten := by
  simp [bytesWritten, fill, FileOp.writtenTo]

theorem fill_closes : (event.fill fd bytes).closes = event.closes := by
  simp [closes, fill, FileOp.closed]

theorem drain_read (len : Nat) (result : Int) :
    (event.drain fd len result).bytesRead = event.bytesRead := by
  simp [bytesRead, drain, FileOp.readFrom]

theorem drain_written (len : Nat) (result : Int) :
    (event.drain event.fd1 len result).bytesWritten =
      event.bytesWritten ++ (event.buffer.take len).take result.toNat := by
  simp [bytesWritten, drain, FileOp.writtenTo]

theorem drain_closes (len : Nat) (result : Int) :
    (event.drain fd len result).closes = event.closes := by
  simp [closes, drain, FileOp.closed]

theorem cleanup_read : event.cleanup.bytesRead = event.bytesRead := by
  simp [bytesRead, cleanup, FileOp.readFrom]

theorem cleanup_written : event.cleanup.bytesWritten = event.bytesWritten := by
  simp [bytesWritten, cleanup, FileOp.writtenTo]

theorem cleanup_at (pending : event.pending = []) (unclosed : event.closes = []) :
    event.cleanup.At .closed where
  pending := pending
  len := fun reads => absurd reads (by decide)
  chunk := rfl
  writing := by decide
  unread := fun opening => by cases opening
  closes := by
    have appended : event.cleanup.closes = event.closes ++ [event.fd0, event.fd1] :=
      List.filterMap_append
    rw [appended, unclosed]
    rfl

theorem reading_at (submitted : event.pending = [.read event.fd0 bufSize])
    (len : event.len = bufSize) (unclosed : event.closes = []) : event.At .reading where
  pending := submitted
  len := fun _ => len
  chunk := rfl
  writing := by decide
  unread := fun opening => by cases opening
  closes := unclosed

end Files

theorem moves_quiet (event t : EventCtx) (phase next : Phase) (op : CopyOp) (stands : t.At next)
    (read : t.bytesRead = event.bytesRead) (written : t.bytesWritten = event.bytesWritten)
    (heldSame : next.held = phase.held) (noBytes : op.bytes = []) (noLoss : op.lost = 0) :
    event.Moves phase op t next where
  stands := stands
  read := by rw [read, noBytes, List.append_nil]
  kept := fun _ => by rw [written, heldSame, noBytes, List.append_nil]
  count := by rw [written, heldSame, noBytes, noLoss, List.length_nil]

section Reads

variable (event : EventCtx) (held : event.At .reading) (expired : Bool) (len : Nat) (result : Int)

include held

theorem read_chunk_moves (bytes : List UInt8) (positive : 0 < result)
    (size : result = bytes.length) :
    event.Moves .reading (.read event.fd0 len result bytes)
      (({ event with pending := [] }.fill event.fd0 bytes).onRead expired result)
      (.writing bytes) := by
  have count : result.toNat = bytes.length := by omega
  have gained : ({ event with pending := [] }.fill event.fd0 bytes).bytesRead =
      event.bytesRead ++ bytes := fill_read _ _
  have written : ({ event with pending := [] }.fill event.fd0 bytes).bytesWritten =
      event.bytesWritten := fill_written _ _ _
  unfold onRead
  rw [if_neg (Int.not_le.mpr positive)]
  exact {
    stands := {
      pending := by rw [count]; rfl
      len := fun reads => by cases reads
      chunk := List.take_left
      writing := by
        intro empty
        cases empty
        rw [List.length_nil] at size
        omega
      unread := fun opening => by cases opening
      closes := (fill_closes _ _ _).trans held.closes }
    read := gained
    kept := by
      intro _
      exact congrArg (· ++ bytes) (written.trans (List.append_nil _).symm)
    count := congrArg (fun list => list.length + bytes.length + 0) written }

/-- After any other read the files are closed, unless it is tried again. -/
theorem read_nothing_moves (failed : result ≤ 0) :
    event.Moves .reading (.read event.fd0 len result [])
      (({ event with pending := [] }.fill event.fd0 []).onRead expired result)
      (if expired ∨ result ≠ uvEagain then .closed else .waiting) := by
  have unclosed : ({ event with pending := [] }.fill event.fd0 []).closes = [] :=
    (fill_closes _ _ _).trans held.closes
  have gained : ({ event with pending := [] }.fill event.fd0 []).bytesRead = event.bytesRead :=
    (fill_read _ _).trans (List.append_nil _)
  have written : ({ event with pending := [] }.fill event.fd0 []).bytesWritten =
      event.bytesWritten := fill_written _ _ _
  unfold onRead
  rw [if_pos failed]
  cases expired with
  | true =>
      rw [if_pos rfl, if_pos (Or.inl rfl)]
      apply moves_quiet
      · exact cleanup_at _ rfl unclosed
      · exact (cleanup_read _).trans gained
      · exact (cleanup_written _).trans written
      all_goals rfl
  | false =>
      rw [if_neg Bool.false_ne_true]
      by_cases again : result = uvEagain
      · rw [if_neg (not_not.mpr again), if_neg (by simp [again])]
        apply moves_quiet
        · exact {
            pending := rfl
            len := fun _ => held.len rfl
            chunk := rfl
            writing := by decide
            unread := fun opening => by cases opening
            closes := unclosed }
        · exact gained
        · exact written
        all_goals rfl
      · rw [if_pos again, if_pos (Or.inr again)]
        apply moves_quiet
        · exact cleanup_at _ rfl unclosed
        · exact (cleanup_read _).trans gained
        · exact (cleanup_written _).trans written
        all_goals rfl

end Reads

section Callbacks

variable (event : EventCtx) (phase : Phase) (held : event.At phase) (expired : Bool)

include held

theorem opened_moves (result : Int) (own : phase.requests event = [.open]) :
    ∃ next, phase.next expired (.opened result) = some next ∧
      event.Moves phase (.opened result) ({ event with pending := [] }.onOpen result) next := by
  have opening : phase = .opening := by
    cases phase <;> first | rfl | cases own
  rw [opening] at held ⊢
  have files : event.files = [] := held.unread rfl
  unfold Phase.next onOpen
  refine ⟨_, rfl, ?_⟩
  split_ifs with failed
  · apply moves_quiet
    · exact {
        pending := rfl
        len := fun reads => absurd reads (by decide)
        chunk := rfl
        writing := by decide
        unread := fun _ => files
        closes := held.closes }
    all_goals rfl
  · apply moves_quiet
    · exact reading_at _ (congrArg (fun len => [Request.read result len]) (held.len rfl))
        (held.len rfl) held.closes
    · change event.files.flatMap _ = event.files.flatMap _
      rw [files]
      rfl
    all_goals rfl

theorem read_moves (fd : Int) (len : Nat) (result : Int) (bytes : List UInt8)
    (own : phase.requests event = [.read fd len])
    (possible : (CopyOp.read fd len result bytes).possible = true) :
    ∃ next, phase.next expired (.read fd len result bytes) = some next ∧
      event.Moves phase (.read fd len result bytes)
        (({ event with pending := [] }.fill fd bytes).onRead expired result) next := by
  have reading : phase = .reading := by
    cases phase <;> first | rfl | cases own
  rw [reading] at held own ⊢
  have source : fd = event.fd0 := by
    cases own
    rfl
  rw [source]
  unfold CopyOp.possible at possible
  dsimp only at possible
  refine ⟨_, rfl, ?_⟩
  by_cases positive : 0 < result
  · rw [if_pos positive] at possible ⊢
    have size := (of_decide_eq_true possible).1
    exact event.read_chunk_moves held expired len result bytes positive size
  · rw [if_neg positive] at possible ⊢
    rw [List.isEmpty_iff.mp possible]
    exact event.read_nothing_moves held expired len result (Int.not_lt.mp positive)

theorem written_moves (fd : Int) (len : Nat) (result : Int)
    (own : phase.requests event = [.write fd len])
    (possible : (CopyOp.written fd len result).possible = true) :
    ∃ next, phase.next expired (.written fd len result) = some next ∧
      event.Moves phase (.written fd len result)
        (({ event with pending := [] }.drain fd len result).onWrite result) next := by
  obtain ⟨chunk, writing⟩ : ∃ chunk, phase = .writing chunk := by
    cases phase <;> first | exact ⟨_, rfl⟩ | cases own
  rw [writing] at held own ⊢
  have target : fd = event.fd1 := by
    cases own
    rfl
  have size : len = chunk.length := by
    cases own
    rfl
  rw [target, size]
  rw [size] at possible
  have inChunk : result ≤ chunk.length := of_decide_eq_true possible
  have buffered : event.buffer.take chunk.length = chunk := held.chunk
  let drained := { event with pending := [] }.drain event.fd1 chunk.length result
  have unclosed : drained.closes = [] := (drain_closes _ _ _ _).trans held.closes
  have read : drained.bytesRead = event.bytesRead ++ [] :=
    (drain_read _ _ _ _).trans (List.append_nil _).symm
  have written : drained.bytesWritten = event.bytesWritten ++ chunk.take result.toNat :=
    (drain_written _ _ _).trans (congrArg (fun list => _ ++ list.take result.toNat) buffered)
  have kept : chunk.length - result.toNat = 0 →
      drained.bytesWritten ++ [] = event.bytesWritten ++ chunk ++ [] := by
    intro whole
    rw [written, List.take_of_length_le (by omega)]
  have count : drained.bytesWritten.length + 0 + (chunk.length - result.toNat) =
      event.bytesWritten.length + chunk.length + 0 := by
    rw [written, List.length_append, List.length_take]
    omega
  unfold Phase.next onWrite
  refine ⟨_, rfl, ?_⟩
  split_ifs with failed
  · exact {
      stands := cleanup_at _ rfl unclosed
      read := (cleanup_read _).trans read
      kept := fun whole => (congrArg (· ++ []) (cleanup_written _)).trans (kept whole)
      count := (congrArg (fun list => list.length + 0 + (chunk.length - result.toNat))
        (cleanup_written _)).trans count }
  · exact {
      stands := reading_at _ rfl rfl unclosed
      read := read
      kept := kept
      count := count }

theorem retried_moves (own : phase.requests event = [.retry]) :
    ∃ next, phase.next expired .retried = some next ∧
      event.Moves phase .retried { event with pending := [] }.onRetry next := by
  have waiting : phase = .waiting := by
    cases phase <;> first | rfl | cases own
  rw [waiting] at held ⊢
  refine ⟨_, rfl, ?_⟩
  apply moves_quiet
  · exact reading_at _ (congrArg (fun len => [Request.read event.fd0 len]) (held.len rfl))
      (held.len rfl) held.closes
  all_goals rfl

end Callbacks

end EventCtx

namespace Copy

theorem completed_ok (s t : Copy) (phase : Phase) (request : Request)
    (callback : EventCtx → EventCtx) (held : s.event.At phase)
    (ran : (do
      let event ← s.event.finish request
      return { s with event := callback event } : Except Refusal Copy) = .ok t) :
    phase.requests s.event = [request] ∧
      t = { s with event := callback { s.event with pending := [] } } := by
  obtain ⟨rest, done, same⟩ := (Fallible.bind_eq_ok_iff _ _ _).mp ran
  obtain ⟨own, emptied⟩ := s.event.finish_ok rest phase request held done
  refine ⟨own, ?_⟩
  rw [← Except.ok.inj same, emptied]

theorem step_moves (s t : Copy) (phase : Phase) (op : CopyOp) (held : s.event.At phase)
    (ran : s.step op = .ok t) :
    op.possible = true ∧ (∀ request ∈ op.request, phase.requests s.event = [request]) ∧
      ∃ next, phase.next s.expired op = some next ∧ s.event.Moves phase op t.event next := by
  have only : ∀ request other, phase.requests s.event = [request] → other ∈ some request →
      phase.requests s.event = [other] := by
    intro request other own completed
    rw [own, Option.mem_some_iff.mp completed]
  unfold step at ran
  split_ifs at ran with possible
  refine ⟨possible, ?_⟩
  cases op with
  | opened result =>
      obtain ⟨own, same⟩ := s.completed_ok t phase .open _ held ran
      rw [same]
      exact ⟨fun other => only .open other own,
        s.event.opened_moves phase held s.expired result own⟩
  | read fd len result bytes =>
      obtain ⟨own, same⟩ := s.completed_ok t phase (.read fd len)
        (fun event => (event.fill fd bytes).onRead s.expired result) held ran
      rw [same]
      exact ⟨fun other => only (.read fd len) other own,
        s.event.read_moves phase held s.expired fd len result bytes own possible⟩
  | written fd len result =>
      obtain ⟨own, same⟩ := s.completed_ok t phase (.write fd len)
        (fun event => (event.drain fd len result).onWrite result) held ran
      rw [same]
      exact ⟨fun other => only (.write fd len) other own,
        s.event.written_moves phase held s.expired fd len result own possible⟩
  | retried =>
      obtain ⟨own, same⟩ := s.completed_ok t phase .retry _ held ran
      rw [same]
      exact ⟨fun other => only .retry other own, s.event.retried_moves phase held s.expired own⟩
  | expired =>
      rw [← Except.ok.inj ran]
      refine ⟨fun other completed => absurd completed (Option.not_mem_none other), phase, ?_, ?_⟩
      · cases phase <;> rfl
      · exact EventCtx.moves_quiet _ _ phase phase .expired held rfl rfl rfl rfl rfl

theorem step_flag (s t : Copy) (op : CopyOp) (completes : op ≠ .expired)
    (ran : s.step op = .ok t) : t.expired = s.expired := by
  unfold step at ran
  split_ifs at ran
  cases op with
  | opened result =>
      obtain ⟨_, _, same⟩ := (Fallible.bind_eq_ok_iff _ _ t).mp ran
      rw [← Except.ok.inj same]
  | read fd len result bytes =>
      obtain ⟨_, _, same⟩ := (Fallible.bind_eq_ok_iff _ _ t).mp ran
      rw [← Except.ok.inj same]
  | written fd len result =>
      obtain ⟨_, _, same⟩ := (Fallible.bind_eq_ok_iff _ _ t).mp ran
      rw [← Except.ok.inj same]
  | retried =>
      obtain ⟨_, _, same⟩ := (Fallible.bind_eq_ok_iff _ _ t).mp ran
      rw [← Except.ok.inj same]
  | expired => exact absurd rfl completes

/-- So many bytes were read and neither written nor held; without such bytes
the written ones are a prefix of the read ones. -/
def Lacks (s : Copy) (n : Nat) : Prop :=
  ∃ phase, s.event.At phase ∧
    s.event.bytesWritten.length + phase.held.length + n = s.event.bytesRead.length ∧
    (n = 0 → s.event.bytesWritten ++ phase.held = s.event.bytesRead)

theorem start_lacks (buf : List UInt8) (out : Int) : (start buf out).Lacks 0 :=
  ⟨.opening, EventCtx.record_event_at buf out, rfl, fun _ => rfl⟩

theorem step_lacks (s t : Copy) (n : Nat) (op : CopyOp) (lacks : s.Lacks n)
    (ran : s.step op = .ok t) : t.Lacks (n + op.lost) := by
  obtain ⟨phase, held, count, exact⟩ := lacks
  obtain ⟨_, _, next, _, moves⟩ := s.step_moves t phase op held ran
  have moved := moves.count
  refine ⟨next, moves.stands, ?_, ?_⟩
  · rw [moves.read, List.length_append]
    omega
  · intro none
    rw [moves.kept (by omega), exact (by omega), moves.read]

theorem run_lacks (s final : Copy) (n : Nat) (ops : List CopyOp) (lacks : s.Lacks n)
    (ran : Runs.run step s ops = .ok final) : final.Lacks (n + (ops.map CopyOp.lost).sum) := by
  induction ops generalizing s n with
  | nil =>
      rw [← Except.ok.inj ran]
      exact lacks
  | cons op rest ih =>
      obtain ⟨next, first, remaining⟩ := (Runs.run_cons_iff s final op rest).mp ran
      rw [List.map_cons, List.sum_cons, ← Nat.add_assoc]
      exact ih next (n + op.lost) (s.step_lacks next n op lacks first) remaining

theorem run_writes (buf : List UInt8) (out : Int) (final : Copy) (ops : List CopyOp)
    (ran : Runs.run step (start buf out) ops = .ok final) (fd : Int) (len : Nat) (result : Int)
    (member : .written fd len result ∈ ops) : 0 < len ∧ result ≤ len := by
  have keeps : ∀ (s : Copy) op t, True → (∃ phase, s.event.At phase) → step s op = .ok t →
      ∃ phase, t.event.At phase := by
    intro s op t _ ⟨phase, held⟩ first
    obtain ⟨_, _, next, _, moves⟩ := s.step_moves t phase op held first
    exact ⟨next, moves.stands⟩
  obtain ⟨before, after, ⟨phase, held⟩, here⟩ := Runs.run_mem keeps
    ⟨.opening, EventCtx.record_event_at buf out⟩ (fun _ _ => trivial) ran _ member
  obtain ⟨possible, completes, _⟩ := before.step_moves after phase _ held here
  have own := completes (.write fd len) rfl
  obtain ⟨chunk, writing⟩ : ∃ chunk, phase = .writing chunk := by
    cases phase <;> first | exact ⟨_, rfl⟩ | cases own
  rw [writing] at own
  have size : chunk.length = len := by
    cases own
    rfl
  have some : chunk ≠ [] := by
    intro empty
    exact held.writing (by rw [writing, empty])
  refine ⟨?_, of_decide_eq_true possible⟩
  rw [← size]
  exact List.length_pos_of_ne_nil some

/-- When a context has closed its files, the output file has got exactly the
bytes that were read from `trace_pipe` if and only if every write of the run
accepted all bytes it was asked to write. -/
theorem copy_exact_iff (buf : List UInt8) (out : Int) (ops : List CopyOp) (final : Copy)
    (ran : Runs.run step (start buf out) ops = .ok final) (closed : final.event.closes ≠ []) :
    final.event.bytesWritten = final.event.bytesRead ↔
      ∀ (fd : Int) (len : Nat) (result : Int), .written fd len result ∈ ops → result = len := by
  obtain ⟨phase, held, count, exact⟩ :=
    (start buf out).run_lacks final 0 ops (start_lacks buf out) ran
  have done : phase = .closed := by
    by_contra going
    rw [held.closes, if_neg going] at closed
    exact closed rfl
  rw [done, Nat.zero_add] at count exact
  have lossless : final.event.bytesWritten = final.event.bytesRead ↔
      (ops.map CopyOp.lost).sum = 0 := by
    constructor
    · intro same
      have lengths := congrArg List.length same
      change final.event.bytesWritten.length + 0 + _ = _ at count
      omega
    · intro none
      exact (List.append_nil _).symm.trans (exact none)
  rw [lossless, List.sum_eq_zero_iff_forall_eq_nat, List.forall_mem_map]
  constructor
  · intro whole fd len result member
    obtain ⟨positive, small⟩ := run_writes buf out final ops ran fd len result member
    have left : len - result.toNat = 0 := whole _ member
    omega
  · intro whole op member
    cases op with
    | written fd len result =>
        have full := whole fd len result member
        change len - result.toNat = 0
        omega
    | opened result => rfl
    | read fd len result bytes => rfl
    | retried => rfl
    | expired => rfl

theorem whole_chunk_copied :
    ∃ final, Runs.run step (start [] 4) [.opened 3, .read 3 4096 4 [1, 2, 3, 4], .written 4 4 4,
        .read 3 4096 0 []] = .ok final ∧
      final.event.closes = [3, 4] ∧ final.event.bytesWritten = final.event.bytesRead := by
  cases ran : Runs.run step (start [] 4) [.opened 3, .read 3 4096 4 [1, 2, 3, 4], .written 4 4 4,
      .read 3 4096 0 []] with
  | error refusal => cases ran
  | ok final =>
      have closes : final.event.closes = [3, 4] := by
        rw [← Except.ok.inj ran]
        rfl
      refine ⟨final, rfl, closes, ?_⟩
      apply (copy_exact_iff [] 4 _ final ran (by rw [closes]; decide)).mpr
      intro fd len result member
      obtain ⟨_, size, value⟩ : fd = 4 ∧ len = 4 ∧ result = 4 := by simpa using member
      rw [size, value]
      rfl

theorem short_write_loses_bytes :
    (Runs.run step (start [] 4) [.opened 3, .read 3 4096 4 [1, 2, 3, 4], .written 4 4 2,
      .read 3 4096 0 []]).map (fun final => (final.event.closes, final.event.bytesRead,
        final.event.bytesWritten)) = .ok ([3, 4], [1, 2, 3, 4], [1, 2]) := by
  decide

end Copy

end WPerf.Recorder
