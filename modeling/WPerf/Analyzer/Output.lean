import WPerf.Library.Dict
import WPerf.Library.Text
import WPerf.Analyzer.Accounting

/-!
# The rows of the written graph

`OutputWaitForGraph` writes a row for each key of the graph in the order of Go's
map range, and leaves out the keys in which the UNKNOWN id occurs as text. The
keys are made of thread names, and the id is no part of them, so what is left
out depends on the names alone. The rows are the edges with a known waker
exactly when the names contain the text "-13" for the other edges and for no
others.
-/

namespace WPerf.Analyzer

open WPerf.Library

set_option autoImplicit false

structure Weight where
  waitID : Int64
  wakerID : Int64
  etime : UInt64
  stime : UInt64

def addWeights (g : Globals) (calls : List Weight) : Globals :=
  calls.foldl (fun g call => addWeight g call.waitID call.wakerID call.etime call.stime) g

/-- `%f` of a weight over the CPU frequency: one line of text. -/
structure FloatFormat where
  print : UInt64 → List Char
  oneLine : ∀ value, '\n' ∉ print value

def unknownText : List Char := Text.decimal (-unknown).toInt

/-- What the file holds after `OutputWaitForGraph`. `range` is the map in the
order of the loop. -/
def outputWaitForGraph (format : FloatFormat) (range : Dict String UInt64) : List Char :=
  range.entries.foldl
    (fun file entry =>
      if unknownText <:+: entry.1.toList then file
      else file ++ (entry.1.toList ++ format.print entry.2 ++ ['\n']))
    "source,target,value\n".toList

def Ranges (graph : GoMap String UInt64) (range : Dict String UInt64) : Prop :=
  ∀ k, range.get? k = graph.lookup k

def rows (text : List Char) : List (List Char) := ((text.splitOn '\n').dropLast).tail

def rowsOf (k : String) (text : List Char) : List (List Char) :=
  (rows text).filter fun row => k.toList <+: row

namespace Weight

/-- Both threads have a name; otherwise the call changes nothing. -/
def Named (g : Globals) (call : Weight) : Prop :=
  getComm g call.waitID ≠ "" ∧ getComm g call.wakerID ≠ ""

def edge (g : Globals) (call : Weight) : String :=
  edgeKey (getComm g call.waitID) (getComm g call.wakerID)

def Plain (g : Globals) (call : Weight) : Prop :=
  (CommaFree (getComm g call.waitID) ∧ '\n' ∉ (getComm g call.waitID).toList) ∧
    CommaFree (getComm g call.wakerID) ∧ '\n' ∉ (getComm g call.wakerID).toList

end Weight

/-- The text has one row for every edge with a known waker, with its weight,
and no other row. -/
structure EdgesWritten (format : FloatFormat) (g : Globals) (calls : List Weight)
    (text : List Char) : Prop where
  knownWritten : ∀ call ∈ calls, call.Named g → call.wakerID ≠ -unknown →
    ∃ weight, (addWeights g calls).waitForGraph.lookup (call.edge g) = some weight ∧
      rowsOf (call.edge g) text = [(call.edge g).toList ++ format.print weight]
  unknownLeftOut : ∀ call ∈ calls, call.Named g → call.wakerID = -unknown →
    rowsOf (call.edge g) text = []
  noOther : ∀ row ∈ rows text, ∃ call ∈ calls, call.Named g ∧ call.wakerID ≠ -unknown ∧
    row ∈ rowsOf (call.edge g) text

theorem add_weight_comms (g : Globals) (waitID wakerID : Int64) (etime stime : UInt64) :
    (addWeight g waitID wakerID etime stime).commMap = g.commMap := by
  unfold addWeight
  dsimp only
  split_ifs <;> rfl

theorem mem_add_weight (g : Globals) (call : Weight) (k : String) :
    k ∈ (addWeight g call.waitID call.wakerID call.etime call.stime).waitForGraph ↔
      k ∈ g.waitForGraph ∨ call.Named g ∧ k = call.edge g := by
  unfold addWeight Weight.Named Weight.edge
  dsimp only
  by_cases nameless : getComm g call.waitID = "" ∨ getComm g call.wakerID = ""
  · rw [if_pos nameless, ← not_or]
    simp [nameless]
  · rw [if_neg nameless, ← not_or]
    dsimp only
    split_ifs with known
    · rw [Finmap.mem_insert]
      simp [nameless, or_comm]
    · rw [Finmap.mem_insert, Finmap.mem_insert]
      simp [nameless, or_comm]

theorem mem_add_weights (g : Globals) (calls : List Weight) (k : String) :
    k ∈ (addWeights g calls).waitForGraph ↔
      k ∈ g.waitForGraph ∨ ∃ call ∈ calls, call.Named g ∧ k = call.edge g := by
  induction calls generalizing g with
  | nil => simp [addWeights]
  | cons call rest ih =>
      have sameComms := add_weight_comms g call.waitID call.wakerID call.etime call.stime
      have sameNames : ∀ pid,
          getComm (addWeight g call.waitID call.wakerID call.etime call.stime) pid =
            getComm g pid := by
        intro pid
        unfold getComm
        rw [sameComms]
      have later := ih (addWeight g call.waitID call.wakerID call.etime call.stime)
      simp only [Weight.Named, Weight.edge, sameNames] at later
      change k ∈ (addWeights (addWeight g call.waitID call.wakerID call.etime call.stime)
        rest).waitForGraph ↔ _
      rw [later, mem_add_weight, or_assoc]
      simp [Weight.Named, Weight.edge]

theorem mentions_edge_iff (g : Globals) (call : Weight) :
    unknownText <:+: (call.edge g).toList ↔
      unknownText <:+: (getComm g call.waitID).toList ∨
        unknownText <:+: (getComm g call.wakerID).toList := by
  have noComma : ',' ∉ unknownText := by decide
  have notEmpty : ¬unknownText <:+: [] := by decide
  rw [Weight.edge, edge_key_chars, Text.infix_append_cons _ noComma,
    Text.infix_append_cons _ noComma]
  simp [notEmpty]

theorem edge_prefix_iff (w x a b : String) (rest : List Char) (wFree : CommaFree w)
    (xFree : CommaFree x) (aFree : CommaFree a) (bFree : CommaFree b) :
    (edgeKey w x).toList <+: (edgeKey a b).toList ++ rest ↔ edgeKey a b = edgeKey w x := by
  rw [edge_key_eq_iff a b w x aFree bFree, edge_key_chars, edge_key_chars]
  constructor
  · intro ⟨more, same⟩
    simp only [List.append_assoc, List.cons_append] at same
    obtain ⟨first, behind⟩ := (Text.append_cons_eq_iff _ _ wFree aFree _ _).mp same
    obtain ⟨second, _⟩ := (Text.append_cons_eq_iff _ _ xFree bFree _ _).mp behind
    exact ⟨(String.toList_inj.mp first).symm, (String.toList_inj.mp second).symm⟩
  · intro ⟨first, second⟩
    rw [first, second]
    exact List.prefix_append _ rest

def kept (range : Dict String UInt64) : List (String × UInt64) :=
  range.entries.filter fun entry => ¬unknownText <:+: entry.1.toList

def rowText (format : FloatFormat) (entry : String × UInt64) : List Char :=
  entry.1.toList ++ format.print entry.2

theorem output_rows (format : FloatFormat) (range : Dict String UInt64)
    (oneLine : ∀ entry ∈ range.entries, '\n' ∉ entry.1.toList) :
    rows (outputWaitForGraph format range) = (kept range).map (rowText format) := by
  have written : ∀ (entries : List (String × UInt64)) (file : List Char),
      entries.foldl (fun file entry =>
        if unknownText <:+: entry.1.toList then file
        else file ++ (entry.1.toList ++ format.print entry.2 ++ ['\n'])) file =
        file ++ ((entries.filter fun entry => ¬unknownText <:+: entry.1.toList).map
          (rowText format)).flatMap fun row => row ++ ['\n'] := by
    intro entries
    induction entries with
    | nil => simp
    | cons entry rest ih =>
        intro file
        rw [List.foldl_cons, ih]
        by_cases mentioned : unknownText <:+: entry.1.toList
        · simp [mentioned]
        · simp [mentioned, rowText]
  have header : "source,target,value\n".toList = "source,target,value".toList ++ ['\n'] := rfl
  have lines := Text.splitOn_terminated '\n'
    ("source,target,value".toList :: (kept range).map (rowText format)) (by
      intro line member
      rcases List.mem_cons.mp member with first | later
      · rw [first]
        decide
      · obtain ⟨entry, stored, same⟩ := List.mem_map.mp later
        rw [← same, rowText, List.mem_append, not_or]
        exact ⟨oneLine entry (List.mem_filter.mp stored).1, format.oneLine entry.2⟩)
  unfold rows outputWaitForGraph
  rw [written, header]
  rw [List.flatMap_cons] at lines
  unfold kept at lines ⊢
  rw [lines, List.dropLast_concat]
  rfl

section Written

variable (format : FloatFormat) {g : Globals} (empty : g.waitForGraph = ∅) {calls : List Weight}
  (plain : ∀ call ∈ calls, call.Plain g) {range : Dict String UInt64}
  (ranges : Ranges (addWeights g calls).waitForGraph range)

include empty ranges in
theorem entry_of_call (entry : String × UInt64) (stored : entry ∈ range.entries) :
    ∃ call ∈ calls, call.Named g ∧ entry.1 = call.edge g := by
  have found := (range.mem_entries_iff entry.1 entry.2).mp stored
  rw [ranges] at found
  have inGraph := Finmap.mem_of_lookup_eq_some found
  rcases (mem_add_weights g calls entry.1).mp inGraph with before | made
  · rw [empty] at before
    exact absurd before Finmap.notMem_empty
  · exact made

include empty plain ranges in
theorem graph_rows :
    rows (outputWaitForGraph format range) = (kept range).map (rowText format) := by
  apply output_rows
  intro entry stored
  obtain ⟨call, member, _, same⟩ := entry_of_call empty ranges entry stored
  obtain ⟨⟨_, waiter⟩, _, waker⟩ := plain call member
  rw [same, Weight.edge, edge_key_chars]
  simp [waiter, waker]

include empty plain ranges in
theorem rows_of_edge (call : Weight) (member : call ∈ calls) (named : call.Named g) :
    ∃ weight, (addWeights g calls).waitForGraph.lookup (call.edge g) = some weight ∧
      rowsOf (call.edge g) (outputWaitForGraph format range) =
        if unknownText <:+: (call.edge g).toList then []
        else [(call.edge g).toList ++ format.print weight] := by
  have inGraph := (mem_add_weights g calls (call.edge g)).mpr (Or.inr ⟨call, member, named, rfl⟩)
  obtain ⟨weight, found⟩ := Finmap.mem_iff.mp inGraph
  refine ⟨weight, found, ?_⟩
  have ownPrefix : ∀ entry ∈ range.entries,
      (call.edge g).toList <+: rowText format entry ↔ entry.1 = call.edge g := by
    intro entry stored
    obtain ⟨other, otherMember, _, same⟩ := entry_of_call empty ranges entry stored
    obtain ⟨⟨waiterFree, _⟩, wakerFree, _⟩ := plain call member
    obtain ⟨⟨otherWaiter, _⟩, otherWaker, _⟩ := plain other otherMember
    rw [rowText, same]
    exact edge_prefix_iff _ _ _ _ _ waiterFree wakerFree otherWaiter otherWaker
  have one := range.filter_key (call.edge g) weight ((ranges _).trans found)
  have ownRows : rowsOf (call.edge g) (outputWaitForGraph format range) =
      ((range.entries.filter fun entry => entry.1 = call.edge g).filter fun entry =>
        ¬unknownText <:+: entry.1.toList).map (rowText format) := by
    rw [rowsOf, graph_rows format empty plain ranges, List.filter_map, kept, List.filter_filter,
      List.filter_filter]
    congr 1
    apply List.filter_congr
    intro entry stored
    rw [Bool.and_comm]
    congr 1
    exact decide_eq_decide.mpr (ownPrefix entry stored)
  rw [ownRows, one]
  by_cases mentioned : unknownText <:+: (call.edge g).toList
  · simp [mentioned]
  · simp [mentioned, rowText]

end Written

/-- The written rows are the edges with a known waker exactly when the text of
the UNKNOWN id occurs in a name of an edge charged to UNKNOWN, and in no name of
another edge. -/
theorem edges_written_iff (format : FloatFormat) (g : Globals) (empty : g.waitForGraph = ∅)
    (calls : List Weight) (plain : ∀ call ∈ calls, call.Plain g) (range : Dict String UInt64)
    (ranges : Ranges (addWeights g calls).waitForGraph range) :
    EdgesWritten format g calls (outputWaitForGraph format range) ↔
      ∀ call ∈ calls, call.Named g →
        (unknownText <:+: (getComm g call.waitID).toList ∨
            unknownText <:+: (getComm g call.wakerID).toList ↔
          call.wakerID = -unknown) := by
  have edgeRows := rows_of_edge format empty plain ranges
  constructor
  · intro written call member named
    obtain ⟨weight, _, own⟩ := edgeRows call member named
    rw [← mentions_edge_iff]
    constructor
    · intro mentioned
      by_contra other
      obtain ⟨_, _, one⟩ := written.knownWritten call member named other
      rw [if_pos mentioned] at own
      rw [own] at one
      cases one
    · intro charged
      have none := written.unknownLeftOut call member named charged
      by_contra clean
      rw [own, if_neg clean] at none
      cases none
  · intro condition
    refine ⟨?_, ?_, ?_⟩
    · intro call member named other
      obtain ⟨weight, found, own⟩ := edgeRows call member named
      have clean := fun mentioned => other ((condition call member named).mp
        ((mentions_edge_iff _ _).mp mentioned))
      rw [if_neg clean] at own
      exact ⟨weight, found, own⟩
    · intro call member named charged
      obtain ⟨_, _, own⟩ := edgeRows call member named
      have mentioned := (mentions_edge_iff _ _).mpr ((condition call member named).mpr charged)
      rw [own]
      exact if_pos mentioned
    · intro row inRows
      have written := inRows
      rw [graph_rows format empty plain ranges] at written
      obtain ⟨entry, stored, same⟩ := List.mem_map.mp written
      obtain ⟨inRange, clean⟩ := List.mem_filter.mp stored
      obtain ⟨call, member, named, key⟩ := entry_of_call empty ranges entry inRange
      rw [decide_eq_true_iff, key] at clean
      refine ⟨call, member, named, ?_, ?_⟩
      · intro charged
        exact clean ((mentions_edge_iff _ _).mpr ((condition call member named).mpr charged))
      · refine List.mem_filter.mpr ⟨inRows, decide_eq_true ?_⟩
        rw [← same, rowText, key]
        exact List.prefix_append _ _

theorem ranges_singleton (k : String) (weight : UInt64) :
    Ranges (Finmap.singleton k weight) ⟨[(k, weight)], List.nodup_singleton k⟩ := by
  intro other
  unfold Dict.get?
  by_cases same : k = other
  · simp [same]
  · have missing : other ∉ (Finmap.singleton k weight : GoMap String UInt64) := by
      rw [Finmap.mem_singleton]
      exact fun equal => same equal.symm
    rw [Finmap.lookup_eq_none.mpr missing]
    simp [same]

def wholeFormat : FloatFormat where
  print value := Text.decimal value.toNat ++ ".000000".toList
  oneLine := by
    intro value
    rw [List.mem_append, not_or]
    refine ⟨?_, by decide⟩
    intro newline
    rcases Text.mem_decimal _ _ newline with sign | digit
    · cases sign
    · exact absurd digit (by decide)

def twoThreads (waiter : String) : Globals :=
  { Globals.initial with
    commMap := (Globals.initial.commMap.insert 1 waiter).insert 2 "sleeper" }

theorem worker_edge_written :
    EdgesWritten wholeFormat (twoThreads "worker") [⟨1, 2, 5, 3⟩]
      (outputWaitForGraph wholeFormat ⟨[("worker,sleeper,", 2)], List.nodup_singleton _⟩) := by
  have graph : (addWeights (twoThreads "worker") [⟨1, 2, 5, 3⟩]).waitForGraph =
      Finmap.singleton "worker,sleeper," 2 := by decide
  refine (edges_written_iff wholeFormat (twoThreads "worker") rfl [⟨1, 2, 5, 3⟩] ?_ _ ?_).mpr ?_
  · intro call member
    rw [List.mem_singleton.mp member]
    exact ⟨by decide, by decide⟩
  · rw [graph]
    exact ranges_singleton "worker,sleeper," 2
  · intro call member _
    rw [List.mem_singleton.mp member]
    decide

theorem worker_13_edge_missing :
    ∃ range, Ranges (addWeights (twoThreads "worker-13") [⟨1, 2, 5, 3⟩]).waitForGraph range ∧
      outputWaitForGraph wholeFormat range = "source,target,value\n".toList ∧
      ¬EdgesWritten wholeFormat (twoThreads "worker-13") [⟨1, 2, 5, 3⟩]
        (outputWaitForGraph wholeFormat range) := by
  have graph : (addWeights (twoThreads "worker-13") [⟨1, 2, 5, 3⟩]).waitForGraph =
      Finmap.singleton "worker-13,sleeper," 2 := by decide
  refine ⟨⟨[("worker-13,sleeper,", 2)], List.nodup_singleton _⟩, ?_, by decide, ?_⟩
  · rw [graph]
    exact ranges_singleton "worker-13,sleeper," 2
  · intro written
    obtain ⟨weight, _, one⟩ := written.knownWritten ⟨1, 2, 5, 3⟩ (by simp)
      ⟨by decide, by decide⟩ (by decide)
    have none : rowsOf "worker-13,sleeper," (outputWaitForGraph wholeFormat
        ⟨[("worker-13,sleeper,", 2)], List.nodup_singleton _⟩) = [] := by decide
    cases none.symm.trans one

end WPerf.Analyzer
