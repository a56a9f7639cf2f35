import WPerf.Treemap.Map

/-!
# Segments in the tree map

`Segments` of `lib/process` as they are in memory: a tree map from start times
to pointers, and the segments that the pointers lead to. The analyzer's model
keeps the segments themselves in an ordered map. Every sequence of calls has
the same outcome on both.
-/

namespace WPerf.Treemap

open WPerf.Library WPerf.Analyzer

set_option autoImplicit false

structure SegmentsInMemory where
  tm : Map UInt64 Nat
  segments : List Segment

namespace SegmentsInMemory

def new : SegmentsInMemory := ⟨Map.newWith uint64Comparator, []⟩

def load (s : SegmentsInMemory) (pointer : Nat) : Except Fault Segment :=
  match s.segments[pointer]? with
  | none => throw .nilDereference
  | some seg => return seg

def put (s : SegmentsInMemory) (pid : Int64) (state : State) (stime etime : UInt64)
    (waitFor : Int64) : Except Fault SegmentsInMemory := do
  let tm ← s.tm.put s.tm.rounds stime s.segments.length
  return ⟨tm, s.segments ++ [⟨pid, state, stime, etime, waitFor⟩]⟩

def floor (s : SegmentsInMemory) (stime : UInt64) : Except Fault (UInt64 × Option Nat) := do
  match ← s.tm.floor s.tm.rounds stime with
  | none => return (0, none)
  | some (k, v) => return (k, some v)

/-- On a miss the assertion `k.(uint64)` on a nil interface panics. -/
def ceiling (s : SegmentsInMemory) (stime : UInt64) : Except Fault (UInt64 × Nat) := do
  match ← s.tm.ceiling s.tm.rounds stime with
  | none => throw .failedAssertion
  | some (k, v) => return (k, v)

def forEach {Result : Type} (s : SegmentsInMemory)
    (f : Result → UInt64 × Nat → Except Fault Result) (result : Result) : Except Fault Result :=
  s.tm.each s.tm.rounds (s.tm.tree.size + 1) f result

def setETime (s : SegmentsInMemory) (pointer : Option Nat) (t : UInt64) :
    Except Fault SegmentsInMemory :=
  match pointer with
  | none => throw .nilDereference
  | some address => do
      let seg ← s.load address
      return { s with segments := s.segments.set address { seg with etime := t } }

end SegmentsInMemory

/-- The calls on a thread's segments. `endAt` is `Floor` with the assignment to
the `ETime` of the segment that was found, as at the end of
`BreakIntoSegments`. -/
inductive SegmentsCall where
  | put (pid : Int64) (state : State) (stime etime : UInt64) (waitFor : Int64)
  | floor (stime : UInt64)
  | ceiling (stime : UInt64)
  | endAt (stime : UInt64)
  | forEach

inductive SegmentsAnswer where
  | done
  | found (key : UInt64) (seg : Option Segment)
  | all (segs : List Segment)

namespace SegmentsInMemory

def loadFound (s : SegmentsInMemory) (pointer : Option Nat) : Except Fault (Option Segment) :=
  match pointer with
  | none => return none
  | some address => return some (← s.load address)

def noteSegment (s : SegmentsInMemory) (seen : List Segment) (entry : UInt64 × Nat) :
    Except Fault (List Segment) := do
  return seen ++ [← s.load entry.2]

def call (state : SegmentsInMemory × List SegmentsAnswer) :
    SegmentsCall → Except Fault (SegmentsInMemory × List SegmentsAnswer)
  | .put pid st stime etime waitFor => do
      return (← state.1.put pid st stime etime waitFor, state.2 ++ [.done])
  | .floor stime => do
      let (k, v) ← state.1.floor stime
      return (state.1, state.2 ++ [.found k (← state.1.loadFound v)])
  | .ceiling stime => do
      let (k, v) ← state.1.ceiling stime
      return (state.1, state.2 ++ [.found k (some (← state.1.load v))])
  | .endAt stime => do
      let (_, seg) ← state.1.floor stime
      return (← state.1.setETime seg stime, state.2 ++ [.done])
  | .forEach => do
      return (state.1, state.2 ++ [.all (← state.1.forEach state.1.noteSegment [])])

end SegmentsInMemory

def segmentsCall (state : Segments × List SegmentsAnswer) :
    SegmentsCall → Except Fault (Segments × List SegmentsAnswer)
  | .put pid st stime etime waitFor =>
      .ok (state.1.put pid st stime etime waitFor, state.2 ++ [.done])
  | .floor stime =>
      let (k, v) := state.1.floor stime
      .ok (state.1, state.2 ++ [.found k v])
  | .ceiling stime => do
      let (k, v) ← state.1.ceiling stime
      return (state.1, state.2 ++ [.found k v])
  | .endAt stime =>
      match state.1.floor stime with
      | (_, none) => .error .nilDereference
      | (k, some _) => .ok (state.1.setETime k stime, state.2 ++ [.done])
  | .forEach => .ok (state.1, state.2 ++ [.all state.1.list])

/-- The pointers in the tree lead to the model's segments, each to one of its
own. -/
structure Backs (s : SegmentsInMemory) (pointers : OrderedMap UInt64 Nat)
    (shape : Shape UInt64 Nat) (segs : Segments) : Prop where
  refines : Refines s.tm pointers shape
  stored : pointers.mapValues (fun pointer => s.segments[pointer]?) = segs.tm.mapValues some
  distinct : pointers.Distinct

theorem new_backs : Backs SegmentsInMemory.new ∅ .leaf Segments.new :=
  ⟨new_refines uint64Comparator, rfl, fun _ member => absurd member List.not_mem_nil⟩

section Calls

variable {s : SegmentsInMemory} {pointers : OrderedMap UInt64 Nat} {shape : Shape UInt64 Nat}
  {segs : Segments}

theorem Backs.pointer (backs : Backs s pointers shape segs) (entry : UInt64 × Nat)
    (member : entry ∈ pointers.entries) :
    ∃ seg, s.segments[entry.2]? = some seg ∧ (entry.1, seg) ∈ segs.tm.entries := by
  have image : (entry.1, s.segments[entry.2]?) ∈ (segs.tm.mapValues some).entries := by
    rw [← backs.stored]
    exact List.mem_map_of_mem member
  obtain ⟨⟨key, seg⟩, inside, same⟩ := List.mem_map.mp image
  obtain ⟨rfl, held⟩ := Prod.mk.inj same
  exact ⟨seg, held.symm, inside⟩

theorem load_held {pointer : Nat} {seg : Segment} (held : s.segments[pointer]? = some seg) :
    s.load pointer = .ok seg := by
  rw [SegmentsInMemory.load, held]
  rfl

theorem Backs.put (backs : Backs s pointers shape segs) (pid : Int64) (state : State)
    (stime etime : UInt64) (waitFor : Int64) :
    ∃ after pointers' shape', s.put pid state stime etime waitFor = .ok after ∧
      Backs after pointers' shape' (segs.put pid state stime etime waitFor) := by
  obtain ⟨tm, ran, refines⟩ := backs.refines.put stime s.segments.length
  refine ⟨⟨tm, s.segments ++ [⟨pid, state, stime, etime, waitFor⟩]⟩, _, _, ?_, refines, ?_, ?_⟩
  · rw [SegmentsInMemory.put, ran]
    rfl
  · -- the older pointers lead to what they led to before
    have older : pointers.mapValues (fun pointer =>
          (s.segments ++ [⟨pid, state, stime, etime, waitFor⟩])[pointer]?) =
        pointers.mapValues fun pointer => s.segments[pointer]? := by
      refine OrderedMap.map_values_congr _ pointers fun entry member => ?_
      obtain ⟨seg, held, _⟩ := backs.pointer entry member
      exact List.getElem?_append_left (List.getElem?_eq_some_iff.mp held).1
    rw [OrderedMap.map_values_put, older, backs.stored, List.getElem?_concat_length]
    exact (OrderedMap.map_values_put some segs.tm stime _).symm
  · refine backs.distinct.put stime fun entry member => ?_
    obtain ⟨seg, held, _⟩ := backs.pointer entry member
    exact ne_of_lt (List.getElem?_eq_some_iff.mp held).1

theorem Backs.setETime (backs : Backs s pointers shape segs) {key : UInt64} {pointer : Nat}
    (member : (key, pointer) ∈ pointers.entries) (t : UInt64) :
    ∃ after, s.setETime (some pointer) t = .ok after ∧
      Backs after pointers shape (segs.setETime key t) := by
  obtain ⟨seg, held, inside⟩ := backs.pointer (key, pointer) member
  refine ⟨{ s with segments := s.segments.set pointer { seg with etime := t } }, ?_,
    backs.refines, ?_, backs.distinct⟩
  · rw [SegmentsInMemory.setETime, load_held held]
    rfl
  · have adjusted := OrderedMap.map_values_adjust some segs.tm key
      (fun seg => { seg with etime := t }) (Option.map fun seg => { seg with etime := t })
      fun _ => rfl
    refine Eq.trans ?_ adjusted.symm
    rw [← backs.stored]
    apply OrderedMap.ext
    simp only [OrderedMap.mapValues, OrderedMap.adjust, List.map_map]
    refine List.map_congr_left fun entry entryMember => ?_
    simp only [Function.comp_apply]
    split_ifs with same
    · -- the key has one entry, and so the pointer that was written through
      have unique := pointers.entry_unique entryMember member same
      subst unique
      rw [List.getElem?_set_self (List.getElem?_eq_some_iff.mp held).1, held]
      rfl
    · have different : pointer ≠ entry.2 := fun equal =>
        same (backs.distinct entry entryMember (key, pointer) member equal.symm)
      rw [List.getElem?_set_ne different]

theorem Backs.each {Result : Type} (backs : Backs s pointers shape segs)
    (f : Result → Segment → Except Fault Result) (result : Result) :
    s.forEach (fun result entry => do f result (← s.load entry.2)) result =
      segs.list.foldlM f result := by
  have values := congrArg (fun map : OrderedMap UInt64 (Option Segment) => map.entries.map Prod.snd)
    backs.stored
  simp only [OrderedMap.mapValues, List.map_map] at values
  rw [SegmentsInMemory.forEach, backs.refines.each, Segments.list, OrderedMap.values]
  generalize segs.tm.entries = stored, pointers.entries = entries at values
  induction stored generalizing entries result with
  | nil => rw [List.map_eq_nil_iff.mp values]; rfl
  | cons first rest ih =>
      cases entries with
      | nil => cases values
      | cons entry entries =>
          obtain ⟨held, later⟩ := List.cons.inj values
          have loaded : s.load entry.2 = .ok first.2 := load_held held
          rw [List.map_cons, List.foldlM_cons, List.foldlM_cons, loaded, Fallible.ok_bind]
          exact congrArg (f result first.2 >>= ·) (funext fun result => ih result entries later)

theorem Backs.forEach (backs : Backs s pointers shape segs) :
    s.forEach s.noteSegment [] = .ok segs.list := by
  have collects : ∀ (list seen : List Segment),
      list.foldlM (fun seen seg => (pure (seen ++ [seg]) : Except Fault (List Segment))) seen =
        .ok (seen ++ list) := by
    intro list
    induction list with
    | nil => exact fun seen => congrArg Except.ok (List.append_nil seen).symm
    | cons seg rest ih =>
        intro seen
        rw [List.foldlM_cons, pure_bind, ih, List.append_assoc, List.singleton_append]
  exact (backs.each (fun seen seg => pure (seen ++ [seg])) []).trans (collects segs.list [])

theorem segments_call_alike (state : SegmentsInMemory × List SegmentsAnswer)
    (model : Segments × List SegmentsAnswer) (call : SegmentsCall)
    (related : (∃ pointers shape, Backs state.1 pointers shape model.1) ∧ state.2 = model.2) :
    Runs.Alike (fun state (model : Segments × List SegmentsAnswer) =>
        (∃ pointers shape, Backs state.1 pointers shape model.1) ∧ state.2 = model.2)
      (SegmentsInMemory.call state call) (segmentsCall model call) := by
  obtain ⟨s, log⟩ := state
  obtain ⟨segs, answers⟩ := model
  obtain ⟨⟨pointers, shape, backs⟩, rfl⟩ := related
  cases call with
  | put pid state stime etime waitFor =>
      obtain ⟨after, pointers', shape', ran, later⟩ := backs.put pid state stime etime waitFor
      simp only [SegmentsInMemory.call, ran, Fallible.ok_bind]
      exact .ended ⟨⟨pointers', shape', later⟩, rfl⟩
  | floor stime =>
      have alike := OrderedMap.floor_found_alike backs.stored stime
      simp only [SegmentsInMemory.call, SegmentsInMemory.floor, backs.refines.floor,
        Fallible.ok_bind, segmentsCall, Segments.floor]
      generalize pointers.floor stime = pointed, segs.tm.floor stime = seen at alike
      cases alike with
      | nothing => exact .ended ⟨⟨pointers, shape, backs⟩, rfl⟩
      | entry held =>
          simp only [pure_bind, SegmentsInMemory.loadFound, load_held held, Fallible.ok_bind]
          exact .ended ⟨⟨pointers, shape, backs⟩, rfl⟩
  | ceiling stime =>
      have alike := OrderedMap.ceiling_found_alike backs.stored stime
      simp only [SegmentsInMemory.call, SegmentsInMemory.ceiling, backs.refines.ceiling,
        Fallible.ok_bind, segmentsCall, Segments.ceiling]
      generalize pointers.ceiling stime = pointed, segs.tm.ceiling stime = seen at alike
      cases alike with
      | nothing => exact .failed Fault.failedAssertion
      | entry held =>
          simp only [pure_bind, load_held held, Fallible.ok_bind]
          exact .ended ⟨⟨pointers, shape, backs⟩, rfl⟩
  | endAt stime =>
      have alike := OrderedMap.floor_found_alike backs.stored stime
      have inTree := fun entry => (OrderedMap.floor_eq_some_iff stime pointers entry).mp
      simp only [SegmentsInMemory.call, SegmentsInMemory.floor, backs.refines.floor,
        Fallible.ok_bind, segmentsCall, Segments.floor]
      generalize pointers.floor stime = pointed, segs.tm.floor stime = seen at alike inTree
      cases alike with
      | nothing => exact .failed Fault.nilDereference
      | entry held =>
          obtain ⟨after, ran, later⟩ := backs.setETime (inTree _ rfl).1 stime
          simp only [pure_bind, ran, Fallible.ok_bind]
          exact .ended ⟨⟨pointers, shape, later⟩, rfl⟩
  | forEach =>
      simp only [SegmentsInMemory.call, backs.forEach, Fallible.ok_bind]
      exact .ended ⟨⟨pointers, shape, backs⟩, rfl⟩

end Calls

def outcome {Value : Type} (ran : Except Fault (Value × List SegmentsAnswer)) :
    Except Fault (List SegmentsAnswer) :=
  ran.map Prod.snd

/-- Every sequence of calls on the segments of a thread has the same outcome in
memory, with its tree and its pointers, as on the analyzer's model: the same
answers, or the same fault after the same calls. -/
theorem segments_run_outcome (calls : List SegmentsCall) :
    outcome (Runs.run SegmentsInMemory.call (SegmentsInMemory.new, []) calls) =
      outcome (Runs.run segmentsCall (Segments.new, []) calls) := by
  have alike := Runs.run_alike _ segmentsCall segments_call_alike (SegmentsInMemory.new, [])
    (Segments.new, []) ⟨⟨∅, .leaf, new_backs⟩, rfl⟩ calls
  generalize Runs.run SegmentsInMemory.call (SegmentsInMemory.new, []) calls = memory,
    Runs.run segmentsCall (Segments.new, []) calls = model at alike
  cases alike with
  | failed fault => rfl
  | ended related => exact congrArg Except.ok related.2

end WPerf.Treemap
