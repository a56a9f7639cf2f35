import WPerf.Library.OrderedMap
import WPerf.Library.Word
import Mathlib.Data.Finmap

/-!
# Events the analyzer reads

The records of `lib/events`: a scheduler switch event and a softirq interval,
and the table that finds the softirq whose end is the first at or after a
time. Go maps are finite maps; a gods tree map is an ordered map.
-/

namespace WPerf.Analyzer

open WPerf.Library

set_option autoImplicit false

abbrev GoMap (Key Value : Type) := Finmap fun _ : Key => Value

structure Switch where
  cpu : Int64
  time : UInt64
  type : Int64
  prevPid : Int64
  nextPid : Int64
  prevState : UInt64
  nextState : UInt64
  prevComm : String
  nextComm : String
  inWhichCtx : Int64
deriving DecidableEq, Repr

structure Soft where
  cpu : Int64
  stime : UInt64
  etime : UInt64
deriving DecidableEq, Repr

def switchTo (comm : Int64 → String) (cpu : Int64) (time : UInt64) (prevPid : Int64)
    (prevState : UInt64) (nextPid : Int64) : Switch where
  cpu := cpu
  time := time
  type := 0
  prevPid := prevPid
  nextPid := nextPid
  prevState := prevState
  nextState := 0
  prevComm := comm prevPid
  nextComm := comm nextPid
  inWhichCtx := 12

/-- A recorded wakeup of type 1 or 2, or an exit of type 3. -/
def lifeEvent (comm : Int64 → String) (type : Int64) (cpu : Int64) (time : UInt64)
    (prevPid nextPid : Int64) : Switch where
  cpu := cpu
  time := time
  type := type
  prevPid := prevPid
  nextPid := nextPid
  prevState := 0
  nextState := 0
  prevComm := comm prevPid
  nextComm := comm nextPid
  inWhichCtx := 12

/-- One tree map for each CPU, keyed by end time. -/
abbrev SoftMap := GoMap Int64 (OrderedMap UInt64 Soft)

def softMapPut (s : SoftMap) (v : Soft) : SoftMap :=
  let m := match s.lookup v.cpu with
    | none => ∅
    | some m => m
  s.insert v.cpu (m.put v.etime v)

def softMapInit (sl : List Soft) (s : SoftMap) : SoftMap := sl.foldl softMapPut s

def getCeilingSoft (sm : SoftMap) (cpu : Int64) (time : UInt64) : Option Soft :=
  match sm.lookup cpu with
  | none => none
  | some m => (m.ceiling time).map Prod.snd

def FiledFrom (sl : List Soft) (sm : SoftMap) : Prop :=
  ∀ cpu m, sm.lookup cpu = some m → ∀ entry ∈ m.entries,
    entry.2 ∈ sl ∧ entry.2.cpu = cpu ∧ entry.2.etime = entry.1

theorem soft_map_put_filed (sl : List Soft) (sm : SoftMap) (v : Soft)
    (filed : FiledFrom sl sm) (listed : v ∈ sl) : FiledFrom sl (softMapPut sm v) := by
  intro cpu m found entry member
  by_cases same : cpu = v.cpu
  · subst same
    simp only [softMapPut, Finmap.lookup_insert, Option.some.injEq] at found
    rw [← found, OrderedMap.mem_put] at member
    rcases member with placed | ⟨old, _⟩
    · rw [placed]
      exact ⟨listed, rfl, rfl⟩
    · cases lookup : sm.lookup v.cpu with
      | none => simp [lookup] at old
      | some m => exact filed v.cpu m lookup entry (by simpa [lookup] using old)
  · rw [softMapPut, Finmap.lookup_insert_of_ne _ same] at found
    exact filed cpu m found entry member

theorem soft_map_init_filed (sl : List Soft) : FiledFrom sl (softMapInit sl ∅) := by
  have prefixes : ∀ (rest : List Soft) (sm : SoftMap), (∀ v ∈ rest, v ∈ sl) →
      FiledFrom sl sm → FiledFrom sl (softMapInit rest sm) := by
    intro rest
    induction rest with
    | nil => exact fun sm _ filed => filed
    | cons v rest ih =>
        intro sm listed filed
        exact ih (softMapPut sm v) (fun other member => listed other (by simp [member]))
          (soft_map_put_filed sl sm v filed (listed v (by simp)))
  apply prefixes sl ∅ (fun _ member => member)
  intro cpu m found
  simp at found

/-- What the lookup returns is a record of that CPU ending at or after `time`. -/
theorem ceiling_soft_spec (sl : List Soft) (cpu : Int64) (time : UInt64) (sf : Soft)
    (found : getCeilingSoft (softMapInit sl ∅) cpu time = some sf) :
    sf ∈ sl ∧ sf.cpu = cpu ∧ time ≤ sf.etime := by
  unfold getCeilingSoft at found
  cases lookup : (softMapInit sl ∅).lookup cpu with
  | none => simp [lookup] at found
  | some m =>
      simp only [lookup, Option.map_eq_some_iff] at found
      rcases found with ⟨entry, ceiling, rfl⟩
      rcases (OrderedMap.ceiling_eq_some_iff time m entry).mp ceiling with ⟨member, above, _⟩
      rcases soft_map_init_filed sl cpu m lookup entry member with ⟨listed, onCpu, key⟩
      refine ⟨listed, onCpu, ?_⟩
      rw [key]
      exact above

end WPerf.Analyzer
