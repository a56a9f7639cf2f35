import WPerf.Treemap.Segments

/-!
# The softirq table in memory

`SoftMap` of `lib/events`: a tree map for each CPU from end times to pointers
into the list of records. A lookup finds what the analyzer's model of the table
finds.
-/

namespace WPerf.Treemap

open WPerf.Library WPerf.Analyzer

set_option autoImplicit false

/-- The list of records, and the tree maps of indices into it. -/
structure SoftsInMemory where
  list : List Soft
  sm : GoMap Int64 (Map UInt64 Nat)

namespace SoftsInMemory

def initStep (s : SoftsInMemory) (record : Soft × Nat) : Except Fault SoftsInMemory := do
  let (v, i) := record
  let m := match s.sm.lookup v.cpu with
    | none => Map.newWith uint64Comparator
    | some m => m
  let m ← m.put m.rounds v.etime i
  return { s with sm := s.sm.insert v.cpu m }

def init (sl : List Soft) : Except Fault SoftsInMemory := sl.zipIdx.foldlM initStep ⟨sl, ∅⟩

def load (s : SoftsInMemory) (pointer : Nat) : Except Fault Soft :=
  match s.list[pointer]? with
  | none => throw .nilDereference
  | some sf => return sf

def getCeilingSoft (s : SoftsInMemory) (cpu : Int64) (time : UInt64) :
    Except Fault (Option Nat) :=
  match s.sm.lookup cpu with
  | none => return none
  | some m => do
      match ← m.ceiling m.rounds time with
      | none => return none
      | some (_, v) => return some v

end SoftsInMemory

def MapBacks (list : List Soft) (m : Map UInt64 Nat) (map : OrderedMap UInt64 Soft) : Prop :=
  ∃ pointers shape, Refines m pointers shape ∧
    pointers.mapValues (fun pointer => list[pointer]?) = map.mapValues some

/-- The two tables have maps for the same CPUs, that lead to the same
records. -/
def SoftsBack (s : SoftsInMemory) (sm : SoftMap) : Prop :=
  ∀ cpu, Option.Rel (MapBacks s.list) (s.sm.lookup cpu) (sm.lookup cpu)

theorem new_map_backs (list : List Soft) :
    MapBacks list (Map.newWith uint64Comparator) ∅ :=
  ⟨∅, .leaf, new_refines uint64Comparator, rfl⟩

theorem MapBacks.put {list : List Soft} {m : Map UInt64 Nat} {map : OrderedMap UInt64 Soft}
    (backs : MapBacks list m map) (etime : UInt64) {i : Nat} {v : Soft} (listed : list[i]? = some v) :
    ∃ after, m.put m.rounds etime i = .ok after ∧ MapBacks list after (map.put etime v) := by
  obtain ⟨pointers, shape, refines, stored⟩ := backs
  obtain ⟨after, ran, later⟩ := refines.put etime i
  refine ⟨after, ran, pointers.put etime i, _, later, ?_⟩
  rw [OrderedMap.map_values_put, OrderedMap.map_values_put, stored, listed]

theorem init_step_backs (s : SoftsInMemory) (sm : SoftMap) (record : Soft × Nat)
    (listed : s.list[record.2]? = some record.1) (backs : SoftsBack s sm) :
    ∃ after, s.initStep record = .ok after ∧ after.list = s.list ∧
      SoftsBack after (softMapPut sm record.1) := by
  obtain ⟨v, i⟩ := record
  have own : ∀ {m : Map UInt64 Nat} {map : OrderedMap UInt64 Soft}, MapBacks s.list m map →
      ∃ m', m.put m.rounds v.etime i = .ok m' ∧
        SoftsBack { s with sm := s.sm.insert v.cpu m' } (sm.insert v.cpu (map.put v.etime v)) := by
    intro m map mapBacks
    obtain ⟨m', ran, later⟩ := mapBacks.put v.etime listed
    refine ⟨m', ran, fun cpu => ?_⟩
    by_cases same : cpu = v.cpu
    · subst same
      rw [Finmap.lookup_insert, Finmap.lookup_insert]
      exact .some later
    · rw [Finmap.lookup_insert_of_ne _ same, Finmap.lookup_insert_of_ne _ same]
      exact backs cpu
  have here := backs v.cpu
  cases tree : s.sm.lookup v.cpu <;> cases model : sm.lookup v.cpu <;>
    rw [tree, model] at here <;> cases here
  · obtain ⟨m', ran, later⟩ := own (new_map_backs s.list)
    refine ⟨{ s with sm := s.sm.insert v.cpu m' }, ?_, rfl, ?_⟩
    · simp only [SoftsInMemory.initStep, tree, ran, Fallible.ok_bind]
      rfl
    · simp only [softMapPut, model]
      exact later
  · rename_i mapBacks
    obtain ⟨m', ran, later⟩ := own mapBacks
    refine ⟨{ s with sm := s.sm.insert v.cpu m' }, ?_, rfl, ?_⟩
    · simp only [SoftsInMemory.initStep, tree, ran, Fallible.ok_bind]
      rfl
    · simp only [softMapPut, model]
      exact later

/-- Loading the table never fails, and it holds the model's records. -/
theorem init_backs (sl : List Soft) :
    ∃ s, SoftsInMemory.init sl = .ok s ∧ SoftsBack s (softMapInit sl ∅) := by
  have loop : ∀ (records : List (Soft × Nat)) (s : SoftsInMemory) (sm : SoftMap),
      (∀ record ∈ records, s.list[record.2]? = some record.1) → SoftsBack s sm →
      ∃ after, records.foldlM SoftsInMemory.initStep s = .ok after ∧
        SoftsBack after (softMapInit (records.map Prod.fst) sm) := by
    intro records
    induction records with
    | nil => exact fun s sm _ backs => ⟨s, rfl, backs⟩
    | cons record rest ih =>
        intro s sm listed backs
        obtain ⟨middle, ran, same, later⟩ :=
          init_step_backs s sm record (listed record List.mem_cons_self) backs
        rw [List.foldlM_cons, ran, Fallible.ok_bind]
        refine ih middle _ (fun other member => ?_) later
        rw [same]
        exact listed other (List.mem_cons_of_mem record member)
  have ran := loop sl.zipIdx ⟨sl, ∅⟩ ∅
    (fun record member => List.mem_zipIdx_iff_getElem?.mp member)
    (fun cpu => by rw [Finmap.lookup_empty, Finmap.lookup_empty]; exact .none)
  rw [List.zipIdx_map_fst] at ran
  exact ran

theorem SoftsBack.get_ceiling_soft {s : SoftsInMemory} {sm : SoftMap} (backs : SoftsBack s sm)
    (cpu : Int64) (time : UInt64) :
    ∃ pointer, s.getCeilingSoft cpu time = .ok pointer ∧
      Option.Rel (fun pointer sf => s.load pointer = .ok sf) pointer
        (getCeilingSoft sm cpu time) := by
  have here := backs cpu
  unfold SoftsInMemory.getCeilingSoft getCeilingSoft
  generalize s.sm.lookup cpu = tree, sm.lookup cpu = model at here
  cases here with
  | none => exact ⟨none, rfl, .none⟩
  | @some m map mapBacks =>
      obtain ⟨pointers, shape, refines, stored⟩ := mapBacks
      have alike := OrderedMap.ceiling_found_alike stored time
      simp only [refines.ceiling, Fallible.ok_bind]
      generalize pointers.ceiling time = pointed, map.ceiling time = seen at alike ⊢
      cases alike with
      | nothing => exact ⟨none, rfl, .none⟩
      | entry held =>
          refine ⟨some _, rfl, .some ?_⟩
          rw [SoftsInMemory.load, held]
          rfl

end WPerf.Treemap
