import WPerf.Recorder.CopyLoop

/-!
# One request at a time

The requests of a context share one union and one buffer. They may, because a
callback submits at most one request and runs when the one before it is done:
a context has a request pending until it cleans up, and none from then on.
-/

namespace WPerf.Recorder

open WPerf.Library

set_option autoImplicit false

namespace EventCtx

/-- Before `cleanup` one request is pending. After it nothing is, and each of
the two files was closed once. -/
structure OneRequest (event : EventCtx) : Prop where
  single : event.closes = [] → ∃ request, event.pending = [request]
  settled : event.closes ≠ [] →
    event.pending = [] ∧ event.closes = [event.fd0, event.fd1]

theorem At.one_request {event : EventCtx} {phase : Phase} (held : event.At phase)
    (opened : phase ≠ .unopened) : event.OneRequest := by
  have pending := held.pending
  have closes := held.closes
  by_cases done : phase = .closed
  · rw [if_pos done] at closes
    rw [done] at pending
    constructor
    · intro unclosed
      rw [unclosed] at closes
      cases closes
    · exact fun _ => ⟨pending, closes⟩
  · rw [if_neg done] at closes
    constructor
    · intro _
      rw [pending]
      cases phase with
      | opening => exact ⟨_, rfl⟩
      | unopened => exact absurd rfl opened
      | reading => exact ⟨_, rfl⟩
      | writing chunk => exact ⟨_, rfl⟩
      | waiting => exact ⟨_, rfl⟩
      | closed => exact absurd rfl done
    · exact fun closed => absurd closes closed

end EventCtx

theorem Phase.next_opened {phase next : Phase} {expired : Bool} {op : CopyOp}
    (moved : phase.next expired op = some next) (opened : phase ≠ .unopened)
    (succeeds : ∀ result, op = .opened result → 0 ≤ result) : next ≠ .unopened := by
  unfold Phase.next at moved
  split at moved
  · next result =>
      rw [if_neg (Int.not_lt.mpr (succeeds result rfl))] at moved
      rw [← Option.some.inj moved]
      exact Phase.noConfusion
  · rw [← Option.some.inj moved]
    split_ifs <;> exact Phase.noConfusion
  · rw [← Option.some.inj moved]
    split_ifs <;> exact Phase.noConfusion
  · rw [← Option.some.inj moved]
    exact Phase.noConfusion
  · rw [← Option.some.inj moved]
    exact opened
  · cases moved

theorem Phase.next_writing {phase : Phase} {expired : Bool} {op : CopyOp} {chunk : List UInt8}
    (moved : phase.next expired op = some (.writing chunk)) (completes : op ≠ .expired) :
    ∃ fd len result, op = .read fd len result chunk ∧ 0 < result := by
  unfold Phase.next at moved
  split at moved
  · split_ifs at moved <;> cases moved
  · next fd len result bytes =>
      by_cases positive : 0 < result
      · rw [if_pos positive] at moved
        cases moved
        exact ⟨fd, len, result, rfl, positive⟩
      · rw [if_neg positive] at moved
        split_ifs at moved <;> cases moved
  · split_ifs at moved <;> cases moved
  · cases moved
  · exact absurd rfl completes
  · cases moved

namespace Copy

/-- What a step submits: reads of the whole buffer, writes of what was just
read, and nothing once the files are closed. -/
structure Submits (s : Copy) (op : CopyOp) (t : Copy) : Prop where
  reads : ∀ (fd : Int) (len : Nat), .read fd len ∈ t.event.pending →
    fd = t.event.fd0 ∧ len = bufSize
  writes : op ≠ .expired → ∀ (fd : Int) (len : Nat), .write fd len ∈ t.event.pending →
    fd = t.event.fd1 ∧ ∃ source count bytes, op = .read source count len bytes
  nothing : s.event.closes ≠ [] → t.event = s.event

theorem step_submits (s t : Copy) (phase : Phase) (op : CopyOp) (held : s.event.At phase)
    (ran : s.step op = .ok t) : s.Submits op t := by
  obtain ⟨possible, completes, next, moved, moves⟩ := s.step_moves t phase op held ran
  have pending := moves.stands.pending
  constructor
  · intro fd len member
    rw [pending] at member
    cases next with
    | reading =>
        obtain ⟨rfl, rfl⟩ := Request.read.inj (List.mem_singleton.mp member)
        exact ⟨rfl, rfl⟩
    | opening => cases List.mem_singleton.mp member
    | unopened => cases member
    | writing chunk => cases List.mem_singleton.mp member
    | waiting => cases List.mem_singleton.mp member
    | closed => cases member
  · intro completion fd len member
    rw [pending] at member
    cases next with
    | writing chunk =>
        obtain ⟨rfl, rfl⟩ := Request.write.inj (List.mem_singleton.mp member)
        obtain ⟨source, count, result, rfl, positive⟩ := Phase.next_writing moved completion
        unfold CopyOp.possible at possible
        dsimp only at possible
        rw [if_pos positive] at possible
        refine ⟨rfl, source, count, chunk, ?_⟩
        rw [(of_decide_eq_true possible).1]
    | opening => cases List.mem_singleton.mp member
    | unopened => cases member
    | reading => cases List.mem_singleton.mp member
    | waiting => cases List.mem_singleton.mp member
    | closed => cases member
  · intro closed
    have done : phase = .closed := by
      by_contra going
      exact closed (held.closes.trans (if_neg going))
    rw [done] at completes
    cases op with
    | expired =>
        rw [step, if_pos possible] at ran
        rw [← Except.ok.inj ran]
    | opened result => cases completes _ rfl
    | read fd len result bytes => cases completes _ rfl
    | written fd len result => cases completes _ rfl
    | retried => cases completes _ rfl

/-- In every run of a context whose input is opened, at every state of the run
and for every step of it. -/
theorem one_request_at_a_time (buf : List UInt8) (out : Int) (ops : List CopyOp) (final : Copy)
    (ran : Runs.run step (start buf out) ops = .ok final)
    (opened : ∀ result, .opened result ∈ ops → 0 ≤ result) :
    final.event.OneRequest ∧
      ∀ pair ∈ Runs.steps step (start buf out) ops, ∀ t, step pair.1 pair.2 = .ok t →
        pair.1.event.OneRequest ∧ pair.1.Submits pair.2 t := by
  let invariant (s : Copy) : Prop := ∃ phase, s.event.At phase ∧ phase ≠ .unopened
  have keeps : ∀ (s : Copy) op t, (∀ result, op = .opened result → 0 ≤ result) → invariant s →
      step s op = .ok t → invariant t := by
    intro s op t succeeds ⟨phase, held, notFailed⟩ first
    obtain ⟨_, _, next, moved, moves⟩ := s.step_moves t phase op held first
    exact ⟨next, moves.stands, Phase.next_opened moved notFailed succeeds⟩
  have begins : invariant (start buf out) :=
    ⟨.opening, EventCtx.record_event_at buf out, Phase.noConfusion⟩
  have allowed : ∀ op ∈ ops, ∀ result, op = .opened result → 0 ≤ result := by
    intro op member result same
    rw [same] at member
    exact opened result member
  constructor
  · obtain ⟨phase, held, notFailed⟩ := Runs.run_invariant keeps begins allowed ran
    exact held.one_request notFailed
  · intro pair member t first
    obtain ⟨⟨phase, held, notFailed⟩, _⟩ :=
      Runs.steps_invariant keeps begins allowed ran pair member
    exact ⟨held.one_request notFailed, pair.1.step_submits t phase pair.2 held first⟩

def retriedRun : List CopyOp :=
  [.opened 3, .read 3 4096 2 [1, 2], .written 4 2 2, .read 3 4096 (-11) [], .retried, .expired,
    .read 3 4096 (-11) []]

theorem retried_run_one_request :
    ∃ final, Runs.run step (start [] 4) retriedRun = .ok final ∧ final.event.OneRequest ∧
      ∀ pair ∈ Runs.steps step (start [] 4) retriedRun, ∀ t, step pair.1 pair.2 = .ok t →
        pair.1.event.OneRequest ∧ pair.1.Submits pair.2 t := by
  cases ran : Runs.run step (start [] 4) retriedRun with
  | error refusal => cases ran
  | ok final =>
      refine ⟨final, rfl, one_request_at_a_time [] 4 retriedRun final ran ?_⟩
      intro result member
      have value : result = 3 := by simpa [retriedRun] using member
      omega

end Copy

end WPerf.Recorder
