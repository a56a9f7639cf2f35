import WPerf.Library.Probes
import WPerf.Module.Statements

/-!
# Calls that hold the lock

Filter writes, filter reads and output reads as the statements that they execute
while they hold `event_mutex`, whatever their texts are. Alone the statements do
what the operations do. The calls of the probes that fall between them can be
moved before them or behind them, or find the probes off.
-/

namespace WPerf.Module

open WPerf.Library
open WPerf.Library.Threads
open WPerf.Library.Movers

set_option autoImplicit false

/-- A call of a file operation, from the lock on. `data` is the text that was
copied from the user, and `dup` says whether `kstrdup` finds memory. -/
inductive FileCall where
  | filterWrite (dup : Bool) (data : List Char)
  | filterRead
  | outputRead
deriving DecidableEq, Repr

inductive Returned where
  | written (err : Except Errno Unit)
  | text (seq : TraceSeq)
deriving DecidableEq, Repr

/-- The value a call returns, with its variables at its end. The error of a write
depends on its text only. -/
def FileCall.returned (takes : List Char → Bool) : FileCall → Locals → Returned
  | filterWrite dup data, _ =>
      .written (if ¬dup then .error .enomem
        else if (filterTokens data).all takes then .ok () else .error .einval)
  | filterRead, l => .text l.seq
  | outputRead, l => .text l.seq

theorem write_returned (takes : List Char → Bool) (data : List Char) (l : Locals) :
    (FileCall.filterWrite true data).returned takes l =
      .written (if (filterTokens data).all takes then .ok () else .error .einval) := rfl

theorem loop_until_refused {State : Type}
    (loop : List (List Char) → State → Except Fault (Except Errno Unit × State))
    (take : State → List Char → Except Fault State) (takes : List Char → Bool)
    (refuse : State → State)
    (ends : ∀ s, loop [] s = .ok (.ok (), s)) (skips : ∀ rest s, loop ([] :: rest) s = loop rest s)
    (stops : ∀ token rest s, token ≠ [] → takes token = false →
      loop (token :: rest) s = .ok (.error .einval, refuse s))
    (goesOn : ∀ token rest s, token ≠ [] → takes token = true →
      loop (token :: rest) s = take s token >>= loop rest)
    (tokens : List (List Char)) (s : State) :
    loop tokens s = (((tokens.filter (· ≠ [])).takeWhile takes).foldlM take s).map fun t =>
      if (tokens.filter (· ≠ [])).all takes then (.ok (), t) else (.error .einval, refuse t) := by
  induction tokens generalizing s with
  | nil => exact ends s
  | cons token rest ih =>
      by_cases empty : token = []
      · rw [empty, skips, List.filter_cons_of_neg (by simp)]
        exact ih s
      · rw [List.filter_cons_of_pos (by simpa using empty), List.all_cons]
        cases taken : takes token with
        | false =>
            rw [stops token rest s empty taken,
              List.takeWhile_cons_of_neg (ne_true_of_eq_false taken)]
            rfl
        | true =>
            rw [goesOn token rest s empty taken, List.takeWhile_cons_of_pos taken, Bool.true_and,
              List.foldlM_cons]
            cases take s token with
            | error fault => rfl
            | ok next => exact ih next

section Printing

variable {Shared Switch : Type} [DecidableEq Switch] {panel : Panel Shared Switch}
  {Hit : Type} {hit : Shared → Hit → Except Fault Shared} {s s' : Shared} {l l' : Locals}

theorem alone_init_iff (rest : List (Stmt panel Locals Fault)) :
    (code panel hit).Alone (Work.stmts [initLocals] ++ rest) s l s' l' ↔
      (code panel hit).Alone rest s .start s' l' := by
  refine (alone_work_cons_iff initLocals).trans ?_
  constructor
  · rintro ⟨next, between, again, stepped, later⟩
    obtain ⟨shared, others⟩ := Prod.mk.inj (Except.ok.inj stepped)
    rw [← shared, ← (Prod.mk.inj others).1, ← (Prod.mk.inj others).2] at later
    exact later
  · exact fun later => ⟨s, .start, false, rfl, later⟩

/-- The variables and the panel do not matter to the statements that only set
variables. -/
theorem init_overlooks : Overlooks hit (initLocals : Work panel Locals Fault) := by
  refine ⟨fun s l s' result stepped => ?_, fun _ _ _ _ _ => rfl⟩
  exact (Prod.mk.inj (Except.ok.inj stepped)).1.symm

theorem none_overlooks : Overlooks hit (putsNone : Work panel Locals Fault) := by
  refine ⟨fun s l s' result stepped => ?_, fun _ _ _ _ _ => rfl⟩
  exact (Prod.mk.inj (Except.ok.inj stepped)).1.symm

theorem reads_overlooks (read : Shared → Locals → Except Fault (Locals × Bool))
    (blind : ∀ s h t l, hit s h = .ok t → read t l = read s l) :
    Overlooks hit (.reads read : Work panel Locals Fault) := by
  refine ⟨fun s l s' result stepped => ?_, fun s h t l interrupted => ?_⟩
  · obtain ⟨found, _, same⟩ := (Fallible.map_eq_ok_iff _ _ _).mp stepped
    exact (Prod.mk.inj same).1.symm
  · change ((read t l).map _).map _ = ((read s l).map _).map _
    rw [blind s h t l interrupted]
    cases read s l <;> rfl

end Printing

namespace DiskUtils

/-- A call of `part_round_stats`, whose probe does nothing unless it is armed. -/
def partRoundStats (s : DiskUtils) (hit : PartHit) : Except Fault DiskUtils :=
  if s.armed then s.onPartRoundStatsEnt hit else .ok s

def printName : Line := .reads fun s l =>
  if l.i + 1 < s.didx then
    (s.loadName l.i).map fun name =>
      ({ l with seq := l.seq.printf (name ++ [',']), i := l.i + 1 }, true)
  else .ok (l, false)

def printLastName : Line := .reads fun s l =>
  (s.loadName l.i).map fun name => ({ l with seq := l.seq.printf (name ++ ['\n']) }, false)

def noDisks (s : DiskUtils) (_ : Locals) : Bool := s.didx = 0

def lines : FileCall → List (Stmt panel Locals Fault)
  | .filterWrite dup data =>
      if dup then
        (Work.stmts [clearDidx] ++ Basic.stmts (turnAll [()] false)) ++
          (Work.stmts ((storedTokens data).map copyName) ++
            if (filterTokens data).all fitsRow then [.onFlag (turnAll [()] true) []] else [])
      else []
  | .filterRead =>
      Work.stmts [initLocals] ++ [.onData noDisks [putsNone] [printName, printLastName]]
  | .outputRead =>
      (Work.stmts [initLocals] ++ Basic.stmts (turnAll [()] false)) ++
        ([.onData noDisks [putsNone] [printEntry, printLast]] ++ [.onFlag (turnAll [()] true) []])

def perform (s : DiskUtils) : FileCall → Except Fault (Returned × DiskUtils)
  | .filterWrite dup data => (s.dutilsFilterWrite dup data).map (Prod.map .written id)
  | .filterRead => (s.dutilsFilterRead .empty).map fun seq => (.text seq, s)
  | .outputRead => (s.dutilsOutputRead .empty).map (Prod.map .text id)

theorem store_tokens_eq (tokens : List (List Char)) (s : DiskUtils) :
    storeTokens tokens s =
      (((tokens.filter (· ≠ [])).takeWhile fitsRow).foldlM storeName s).map fun t =>
        if (tokens.filter (· ≠ [])).all fitsRow then (.ok (), t) else (.error .einval, t) := by
  refine loop_until_refused storeTokens storeName fitsRow id (fun _ => rfl) (fun _ _ => rfl) ?_ ?_
    tokens s
  · intro token rest s nonempty refused
    have long : ¬token.length + 1 ≤ maxDnameSize := of_decide_eq_false refused
    unfold storeTokens
    rw [if_neg nonempty, if_pos (Nat.lt_of_not_le long)]
    rfl
  · intro token rest s nonempty taken
    have short : token.length + 1 ≤ maxDnameSize := of_decide_eq_true taken
    conv_lhs => unfold storeTokens
    rw [if_neg nonempty, if_neg (Nat.not_lt_of_le short)]

section Alone

variable {hit : DiskUtils → PartHit → Except Fault DiskUtils} {s s' : DiskUtils} {l l' : Locals}
  {rest : List (Stmt panel Locals Fault)}

theorem turned_off (s : DiskUtils) : turnedAll [()] panel false s = s.disableJprobe := rfl

theorem alone_print (load : DiskUtils → Nat → Except Fault (List Char)) (loop last : Line)
    (loops : ∀ s l, loop.step s l =
      if l.i + 1 < s.didx then
        (load s l.i).map fun entry =>
          (s, { l with seq := l.seq.printf (entry ++ [',']), i := l.i + 1 }, true)
      else .ok (s, l, false))
    (ends : ∀ s l, last.step s l = (load s l.i).map fun entry =>
      (s, { l with seq := l.seq.printf (entry ++ ['\n']) }, false))
    (count : Nat) (left : l.i + count + 1 = s.didx)
    (alone : (code panel hit).Alone (Work.stmts [loop, last] ++ rest) s l s' l') :
    ∃ entries between, (List.range' l.i (count + 1)).mapM (load s) = .ok entries ∧
      between.seq = l.seq.printList entries ∧ (code panel hit).Alone rest s between s' l' := by
  induction count generalizing l with
  | zero =>
      obtain ⟨next, between, again, stepped, later⟩ := (alone_work_cons_iff loop).mp alone
      rw [loops, if_neg (by omega)] at stepped
      obtain ⟨shared, others⟩ := Prod.mk.inj (Except.ok.inj stepped)
      rw [← shared, ← (Prod.mk.inj others).1, ← (Prod.mk.inj others).2] at later
      obtain ⟨next, between, again, stepped, later⟩ := (alone_work_cons_iff last).mp later
      rw [ends] at stepped
      obtain ⟨entry, first, same⟩ := (Fallible.map_eq_ok_iff _ _ _).mp stepped
      obtain ⟨shared, others⟩ := Prod.mk.inj same
      rw [← shared, ← (Prod.mk.inj others).1, ← (Prod.mk.inj others).2] at later
      exact ⟨[entry], _, (Fallible.mapM_cons_eq_ok_iff (load s) l.i [] [entry]).mpr
        ⟨entry, [], first, rfl, rfl⟩, rfl, later⟩
  | succ count ih =>
      obtain ⟨next, between, again, stepped, later⟩ := (alone_work_cons_iff loop).mp alone
      rw [loops, if_pos (by omega)] at stepped
      obtain ⟨entry, first, same⟩ := (Fallible.map_eq_ok_iff _ _ _).mp stepped
      obtain ⟨shared, others⟩ := Prod.mk.inj same
      rw [← shared, ← (Prod.mk.inj others).1, ← (Prod.mk.inj others).2] at later
      obtain ⟨entries, stop, loaded, printed, remaining⟩ :=
        ih (by simp only []; omega) later
      obtain ⟨second, more, _, _, split⟩ :=
        (Fallible.mapM_cons_eq_ok_iff (load s) (l.i + 1) _ entries).mp loaded
      refine ⟨entry :: entries, stop, ?_, ?_, remaining⟩
      · rw [List.range'_succ]
        exact (Fallible.mapM_cons_eq_ok_iff _ _ _ _).mpr ⟨entry, entries, first, loaded, rfl⟩
      · rw [printed, ← split]
        rfl

theorem alone_listing (load : DiskUtils → Nat → Except Fault (List Char)) (loop last : Line)
    (loops : ∀ s l, loop.step s l =
      if l.i + 1 < s.didx then
        (load s l.i).map fun entry =>
          (s, { l with seq := l.seq.printf (entry ++ [',']), i := l.i + 1 }, true)
      else .ok (s, l, false))
    (ends : ∀ s l, last.step s l = (load s l.i).map fun entry =>
      (s, { l with seq := l.seq.printf (entry ++ ['\n']) }, false))
    (alone : (code panel hit).Alone (.onData noDisks [putsNone] [loop, last] :: rest) s .start
      s' l') :
    ∃ between, (if s.didx = 0 then Except.ok (TraceSeq.empty.puts "none\n".toList)
        else (List.range s.didx).mapM (load s) >>= fun entries =>
          .ok (TraceSeq.empty.printList entries)) = .ok between.seq ∧
      (code panel hit).Alone rest s between s' l' := by
  have branch := (alone_on_data_iff noDisks [putsNone] [loop, last]).mp alone
  by_cases empty : s.didx = 0
  · have none : noDisks s .start = true := decide_eq_true empty
    rw [if_pos none] at branch
    obtain ⟨next, between, again, stepped, later⟩ := (alone_work_cons_iff putsNone).mp branch
    obtain ⟨shared, others⟩ := Prod.mk.inj (Except.ok.inj stepped)
    rw [← shared, ← (Prod.mk.inj others).1, ← (Prod.mk.inj others).2] at later
    exact ⟨_, if_pos empty, later⟩
  · have some : ¬noDisks s .start = true := fun zero => empty (of_decide_eq_true zero)
    rw [if_neg some] at branch
    obtain ⟨count, more⟩ := Nat.exists_eq_succ_of_ne_zero empty
    have left : Locals.start.i + count + 1 = s.didx := by
      change 0 + count + 1 = s.didx
      omega
    obtain ⟨entries, between, loaded, printed, later⟩ :=
      alone_print load loop last loops ends count left branch
    refine ⟨between, ?_, later⟩
    rw [if_neg empty, List.range_eq_range', show s.didx = count + 1 from more]
    rw [show List.range' Locals.start.i (count + 1) = List.range' 0 (count + 1) from rfl] at loaded
    rw [loaded, printed]
    rfl

/-- Alone the statements of a call do what its operation does. -/
theorem lines_perform (call : FileCall)
    (alone : (code panel hit).Alone (lines call) s l s' l') :
    s.perform call = .ok (call.returned fitsRow l', s') := by
  cases call with
  | filterWrite dup data =>
      cases dup with
      | false =>
          rw [← ((alone_nil_iff s s' l l').mp alone).1]
          rfl
      | true =>
          rw [lines, if_pos rfl, List.append_assoc] at alone
          obtain ⟨next, between, again, stepped, later⟩ := (alone_work_cons_iff clearDidx).mp alone
          obtain ⟨shared, others⟩ := Prod.mk.inj (Except.ok.inj stepped)
          rw [← shared, ← (Prod.mk.inj others).1, ← (Prod.mk.inj others).2] at later
          have copying := (alone_turn_all_iff [()] false).mp later
          obtain ⟨stored, copied, closing⟩ := (alone_changes_iff copyName storeName
            (fun _ _ _ => rfl) (storedTokens data)).mp copying
          rw [turned_off] at copied
          have tokens := store_tokens_eq (strsep (strstrip data)) { s with didx := 0, armed := false }
          rw [show ((strsep (strstrip data)).filter (· ≠ [])).takeWhile fitsRow = storedTokens data
            from rfl, show (storedTokens data).foldlM storeName { s with didx := 0, armed := false } =
              .ok stored from copied] at tokens
          change ((storeTokens (strsep (strstrip data)) { s with didx := 0, armed := false } >>= _)
            : Except Fault _).map _ = _
          rw [tokens, write_returned]
          rw [show (strsep (strstrip data)).filter (· ≠ []) = filterTokens data from rfl]
          cases fit : (filterTokens data).all fitsRow with
          | false =>
              rw [fit] at closing
              rw [((alone_nil_iff stored s' l l').mp closing).1]
              rfl
          | true =>
              rw [fit] at closing
              rw [← ((alone_rearm_iff [()]).mp closing).1]
              rfl
  | filterRead =>
      have listing := (alone_init_iff _).mp alone
      obtain ⟨between, listed, ended⟩ := alone_listing loadName printName printLastName
        (fun s l => by
          change Except.map _ (if _ then _ else _) = _
          split_ifs
          · cases s.loadName l.i <;> rfl
          · rfl)
        (fun s l => by
          change Except.map _ (Except.map _ _) = _
          cases s.loadName l.i <;> rfl) listing
      obtain ⟨shared, frame⟩ := (alone_nil_iff s s' between l').mp ended
      rw [frame, shared] at listed
      change Except.map _ (if s.didx = 0 then _ else _) = _
      rw [shared]
      exact congrArg (Except.map _) listed
  | outputRead =>
      rw [lines, List.append_assoc] at alone
      have turning := (alone_init_iff _).mp alone
      have listing := (alone_turn_all_iff [()] false).mp turning
      rw [turned_off] at listing
      obtain ⟨between, listed, closing⟩ := alone_listing loadEntry printEntry printLast
        (fun s l => by
          change Except.map _ (if _ then _ else _) = _
          split_ifs
          · cases s.loadEntry l.i <;> rfl
          · rfl)
        (fun s l => by
          change Except.map _ (Except.map _ _) = _
          cases s.loadEntry l.i <;> rfl) listing
      obtain ⟨armed, frame⟩ := (alone_rearm_iff [()]).mp closing
      rw [frame] at listed
      rw [← armed]
      exact congrArg (fun read : Except Fault TraceSeq => (read >>= fun seq =>
        Except.ok (seq, if s.denabled then s.disableJprobe.enableJprobe else s.disableJprobe)).map
          (Prod.map Returned.text id)) listed

end Alone

section Probe

theorem part_round_stats_counts (s t : DiskUtils) (hit : PartHit)
    (ran : s.partRoundStats hit = .ok t) : ∃ dutils, t = { s with dutils := dutils } := by
  have same : s = t → ∃ dutils, t = { s with dutils := dutils } := fun equal => ⟨s.dutils, equal.symm⟩
  unfold partRoundStats at ran
  split_ifs at ran
  · unfold onPartRoundStatsEnt at ran
    dsimp only at ran
    generalize (if hit.part.partno ≠ 0 then hit.part0 else hit.part) = part at ran
    obtain ⟨idx, _, counted⟩ := (Fallible.bind_eq_ok_iff _ _ _).mp ran
    cases idx with
    | none => exact same (Except.ok.inj counted)
    | some idx =>
        dsimp only at counted
        split_ifs at counted
        · obtain ⟨util, _, stored⟩ := (Fallible.bind_eq_ok_iff _ _ _).mp counted
          unfold storeUtil at stored
          split_ifs at stored
          exact ⟨_, (Except.ok.inj stored).symm⟩
        · exact same (Except.ok.inj counted)
  · exact same (Except.ok.inj ran)

def probed : Probed panel partRoundStats where
  probe _ := ()
  off _ _ off := if_neg (ne_true_of_eq_false off)
  keeps s h t ran := by
    obtain ⟨dutils, rfl⟩ := s.part_round_stats_counts t h ran
    exact ⟨rfl, rfl⟩
  turns s h switch value same := by
    -- turning the only probe either changes whether it is on or changes nothing
    have idle : ∀ t : DiskUtils, t.armed = s.armed → panel.turn switch value t = t := by
      intro t equal
      have stays : value = s.armed := by
        rw [panel.turned, if_pos rfl] at same
        exact same
      cases value with
      | false => exact congrArg (fun armed => { t with armed := armed }) (stays.trans equal.symm)
      | true => exact congrArg (fun armed => { t with armed := armed }) (stays.trans equal.symm)
    rw [idle s rfl]
    cases ran : s.partRoundStats h with
    | error fault => rfl
    | ok t =>
        obtain ⟨dutils, same⟩ := s.part_round_stats_counts t h ran
        exact congrArg Except.ok (idle t (by rw [same])).symm

/-- No device is found once `didx` is 0, and setting variables does not matter to
the probe. -/
theorem opening_early : (code panel partRoundStats).Early fun stmt =>
    stmt = .basic (.work clearDidx) ∨ stmt = .basic (.work initLocals) where
  closed := by
    rintro stmt s l s' l' more (rfl | rfl) acted item left
    · rw [← (Prod.mk.inj (Prod.mk.inj (Except.ok.inj acted)).2).2] at left
      cases left
    · rw [← (Prod.mk.inj (Prod.mk.inj (Except.ok.inj acted)).2).2] at left
      cases left
  passes := by
    rintro stmt s l s' l' more h s'' (rfl | rfl) acted interrupted
    · obtain ⟨shared, _⟩ := Prod.mk.inj (Except.ok.inj acted)
      rw [← shared] at interrupted ⊢
      have missed : partRoundStats { s with didx := 0 } h = .ok { s with didx := 0 } := by
        unfold partRoundStats
        split_ifs <;> rfl
      exact Or.inl (Except.ok.inj (missed.symm.trans interrupted)).symm
    · obtain ⟨shared, others⟩ := Prod.mk.inj (Except.ok.inj acted)
      rw [← shared] at interrupted
      refine Or.inr ⟨s'', interrupted, ?_⟩
      rw [← (Prod.mk.inj others).1, ← (Prod.mk.inj others).2]
      rfl

theorem filter_read_reads (stmt : Stmt panel Locals Fault) (member : stmt ∈ lines .filterRead) :
    Reads partRoundStats stmt := by
  rcases List.mem_append.mp member with opening | listing
  · exact Or.inl ⟨initLocals, init_overlooks, List.mem_singleton.mp opening⟩
  · refine Or.inr ⟨_, _, _, ?_, ?_, List.mem_singleton.mp listing⟩
    · intro s h t l ran
      obtain ⟨dutils, rfl⟩ := s.part_round_stats_counts t h ran
      rfl
    · intro work member
      rcases List.mem_append.mp member with none | printing
      · rw [List.mem_singleton.mp none]
        exact none_overlooks
      · have blind : ∀ read : DiskUtils → Locals → Except Fault (Locals × Bool),
            (∀ s dutils l, read { s with dutils := dutils } l = read s l) →
              Overlooks partRoundStats (.reads read : Line) := by
          intro read same
          refine reads_overlooks read fun s h t l ran => ?_
          obtain ⟨dutils, rfl⟩ := s.part_round_stats_counts t h ran
          exact same s dutils l
        rcases List.mem_cons.mp printing with first | second
        · rw [first]
          exact blind _ fun _ _ _ => rfl
        · rw [List.mem_singleton.mp second]
          exact blind _ fun _ _ _ => rfl

theorem lines_phased (call : FileCall) : (code panel partRoundStats).Phased (lines call) := by
  have all : ∀ switch : Unit, switch ∈ [()] := fun switch => List.mem_singleton.mpr rfl
  have rearm : ∀ stmt ∈ ([.onFlag (turnAll [()] true) []] : List (Stmt panel Locals Fault)),
      Rearms stmt := fun stmt member => Or.inl ⟨[()], List.mem_singleton.mp member⟩
  cases call with
  | filterWrite dup data =>
      cases dup with
      | false => exact ⟨_, [], [], [], rfl, reads_phases fun _ member => absurd member List.not_mem_nil⟩
      | true =>
          refine ⟨_, _, _, if (filterTokens data).all fitsRow then [.onFlag (turnAll [()] true) []]
            else [], rfl, session_phases probed [()] all [clearDidx] _ opening_early
            (fun work member => Or.inl (by rw [List.mem_singleton.mp member])) _ _ (plain_works _) ?_⟩
          split_ifs
          · exact rearm
          · exact fun _ member => absurd member List.not_mem_nil
  | filterRead => exact ⟨_, [], [], _, rfl, reads_phases filter_read_reads⟩
  | outputRead =>
      exact ⟨_, _, _, _, rfl, session_phases probed [()] all [initLocals] _ opening_early
        (fun work member => Or.inr (by rw [List.mem_singleton.mp member])) _ _
        (fun stmt member => Or.inr ⟨_, _, _, List.mem_singleton.mp member⟩) rearm⟩

end Probe

end DiskUtils

namespace TxStat

/-- A send by `current`, whose probe does nothing unless it is armed. -/
structure Send where
  probe : SendProbe
  current : Pid
  size : UInt64
deriving DecidableEq, Repr

def send (s : TxStat) (hit : Send) : Except Fault TxStat :=
  .ok (if s.armed hit.probe then s.onSend hit.probe hit.current hit.size else s)

def printFound (text : Pid → List Char) (l : Locals) : Option Pid → Locals × Bool
  | none => (l, false)
  | some n => ({ seq := l.seq.printf (text n ++ [',']), i := n.val + 1, m := l.m + 1 }, true)

/-- An iteration of `for_each_set_bit` that prints an entry for the bit. -/
def printing (text : TxStat → Pid → List Char) (s : TxStat) (l : Locals) : Locals × Bool :=
  printFound (text s) l (s.findNextBit l.i)

def pidText (_ : TxStat) (n : Pid) : List Char := Text.decimal n.val

def printPid : Line := .reads fun s l => .ok (printing pidText s l)

def noPids (_ : TxStat) (l : Locals) : Bool := l.m = 0

def lines : FileCall → List (Stmt panel Locals Fault)
  | .filterWrite dup data =>
      if dup then
        (Work.stmts [] ++ Basic.stmts (turnAll probes false)) ++
          (Work.stmts (((filterTokens data).takeWhile wellFormed).map setToken ++
            if (filterTokens data).all wellFormed then [] else [zeroFilter]) ++
              if (filterTokens data).all wellFormed then [.onFlag (turnAll probes true) []] else [])
      else []
  | .filterRead =>
      Work.stmts [initLocals] ++ (Work.stmts [printPid] ++ [.onData noPids [putsNone] [endLine]])
  | .outputRead =>
      (Work.stmts [initLocals] ++ Basic.stmts (turnAll probes false)) ++
        ((Work.stmts [printBit] ++ [.onData noPids [putsNone] [endLine]]) ++
          [.onFlag (turnAll probes true) []])

def perform (s : TxStat) : FileCall → Except Fault (Returned × TxStat)
  | .filterWrite dup data => (s.txStatsFilterWrite dup data).map (Prod.map .written id)
  | .filterRead => (s.txStatsFilterRead .empty).map fun seq => (.text seq, s)
  | .outputRead => (s.txStatsOutputRead .empty).map (Prod.map .text id)

/-- `kstrtoul` and `bitmap_set` of an accepted token. -/
def takeToken (s : TxStat) (token : List Char) : Except Fault TxStat :=
  match kstrtoul token with
  | .error _ => .ok s
  | .ok pid => s.bitmapSet pid

theorem set_tokens_eq (tokens : List (List Char)) (s : TxStat) :
    setTokens tokens s =
      (((tokens.filter (· ≠ [])).takeWhile wellFormed).foldlM takeToken s).map fun t =>
        if (tokens.filter (· ≠ [])).all wellFormed then (.ok (), t)
        else (.error .einval, t.bitmapZero) := by
  refine loop_until_refused setTokens takeToken wellFormed bitmapZero (fun _ => rfl)
    (fun _ _ => rfl) ?_ ?_ tokens s
  · intro token rest s nonempty refused
    unfold setTokens
    rw [if_neg nonempty]
    cases number : kstrtoul token with
    | error errno => rfl
    | ok pid =>
        rw [well_formed_ok number] at refused
        cases refused
  · intro token rest s nonempty taken
    conv_lhs => unfold setTokens
    rw [if_neg nonempty]
    unfold takeToken
    cases number : kstrtoul token with
    | error errno =>
        rw [well_formed_error number] at taken
        cases taken
    | ok pid => rfl

section Alone

variable {hit : TxStat → Send → Except Fault TxStat} {s s' : TxStat} {l l' : Locals}
  {rest : List (Stmt panel Locals Fault)}

theorem turned_off (s : TxStat) : turnedAll probes panel false s = s.disableTxStatProbes := rfl

theorem printing_none (text : TxStat → Pid → List Char) (s : TxStat) (l : Locals)
    (past : s.findNextBit l.i = none) : printing text s l = (l, false) :=
  congrArg (printFound (text s) l) past

theorem printing_some (text : TxStat → Pid → List Char) (s : TxStat) (l : Locals) (n : Pid)
    (found : s.findNextBit l.i = some n) : printing text s l =
      ({ seq := l.seq.printf (text s n ++ [',']), i := n.val + 1, m := l.m + 1 }, true) :=
  congrArg (printFound (text s) l) found

theorem print_bit_step (s : TxStat) (l : Locals) :
    printBit.step s l = .ok (s, printing entry s l) := by
  unfold printing printBit Work.reads
  dsimp only
  generalize s.findNextBit l.i = bit
  cases bit <;> rfl

theorem alone_print_bits (text : TxStat → Pid → List Char) (loop : Line)
    (loops : ∀ s l, loop.step s l = .ok (s, printing text s l))
    (bits : List Pid)
    (left : (s.setBits.filter fun n => l.i ≤ n.val) = bits)
    (alone : (code panel hit).Alone (.basic (.work loop) :: rest) s l s' l') :
    ∃ between : Locals,
      between.seq = bits.foldl (fun seq n => seq.printf (text s n ++ [','])) l.seq ∧
        between.m = l.m + bits.length ∧ (code panel hit).Alone rest s between s' l' := by
  induction bits generalizing l with
  | nil =>
      have past : s.findNextBit l.i = none := by
        rw [find_next_bit_eq, left]
        rfl
      obtain ⟨next, between, again, stepped, later⟩ := (alone_work_cons_iff loop).mp alone
      rw [loops, printing_none text s l past] at stepped
      obtain ⟨shared, frame⟩ := Prod.mk.inj (Except.ok.inj stepped)
      rw [← shared, ← (Prod.mk.inj frame).1, ← (Prod.mk.inj frame).2] at later
      exact ⟨l, rfl, rfl, later⟩
  | cons n others ih =>
      have found : s.findNextBit l.i = some n := by
        rw [find_next_bit_eq, left]
        rfl
      obtain ⟨next, between, again, stepped, later⟩ := (alone_work_cons_iff loop).mp alone
      rw [loops, printing_some text s l n found] at stepped
      obtain ⟨shared, frame⟩ := Prod.mk.inj (Except.ok.inj stepped)
      rw [← shared, ← (Prod.mk.inj frame).1, ← (Prod.mk.inj frame).2] at later
      have above := s.set_bits_above l.i n others left
      obtain ⟨stop, printed, count, remaining⟩ := ih
        (l := { seq := l.seq.printf (text s n ++ [',']), i := n.val + 1, m := l.m + 1 }) above later
      refine ⟨stop, ?_, ?_, remaining⟩
      · rw [List.foldl_cons]
        exact printed
      · rw [List.length_cons, count]
        exact Nat.add_right_comm l.m 1 others.length

theorem alone_listing (text : TxStat → Pid → List Char) (loop : Line)
    (loops : ∀ s l, loop.step s l = .ok (s, printing text s l))
    (alone : (code panel hit).Alone
      (.basic (.work loop) :: .onData noPids [putsNone] [endLine] :: rest) s .start s' l') :
    ∃ between, endList (s.setBits.map (text s)) .empty = .ok between.seq ∧
      (code panel hit).Alone rest s between s' l' := by
  have all : (s.setBits.filter fun n => Locals.start.i ≤ n.val) = s.setBits :=
    List.filter_eq_self.mpr fun n _ => decide_eq_true (Nat.zero_le _)
  obtain ⟨between, printed, count, later⟩ := alone_print_bits text loop loops s.setBits all alone
  have branch := (alone_on_data_iff noPids [putsNone] [endLine]).mp later
  unfold endList
  rw [List.foldl_map]
  by_cases empty : s.setBits = []
  · rw [empty] at printed count ⊢
    have zero : noPids s between = true := decide_eq_true count
    rw [if_pos zero] at branch
    obtain ⟨next, stop, again, stepped, ended⟩ := (alone_work_cons_iff putsNone).mp branch
    obtain ⟨shared, others⟩ := Prod.mk.inj (Except.ok.inj stepped)
    rw [← shared, ← (Prod.mk.inj others).1, ← (Prod.mk.inj others).2] at ended
    refine ⟨_, ?_, ended⟩
    rw [printed]
    rfl
  · have filled : ¬noPids s between = true := by
      intro zero
      have none : between.m = 0 := of_decide_eq_true zero
      rw [count] at none
      exact empty (List.length_eq_zero_iff.mp (Nat.add_eq_zero_iff.mp none).2)
    rw [if_neg filled] at branch
    obtain ⟨next, stop, again, stepped, ended⟩ := (alone_work_cons_iff endLine).mp branch
    obtain ⟨⟨frame, round⟩, lined, same⟩ := (Fallible.map_eq_ok_iff _ _ _).mp stepped
    obtain ⟨seq, newline, made⟩ := (Fallible.map_eq_ok_iff _ _ _).mp lined
    obtain ⟨shared, others⟩ := Prod.mk.inj same
    rw [← shared, ← (Prod.mk.inj others).1, ← (Prod.mk.inj others).2,
      ← (Prod.mk.inj made).1, ← (Prod.mk.inj made).2] at ended
    refine ⟨_, ?_, ended⟩
    rw [if_neg (by simpa using empty), ← newline, printed]
    rfl

theorem lines_perform (call : FileCall)
    (alone : (code panel hit).Alone (lines call) s l s' l') :
    s.perform call = .ok (call.returned wellFormed l', s') := by
  cases call with
  | filterWrite dup data =>
      cases dup with
      | false =>
          rw [← ((alone_nil_iff s s' l l').mp alone).1]
          rfl
      | true =>
          have turning : (code panel hit).Alone (Basic.stmts (turnAll probes false) ++
              (Work.stmts (((filterTokens data).takeWhile wellFormed).map setToken ++
                if (filterTokens data).all wellFormed then [] else [zeroFilter]) ++
                  if (filterTokens data).all wellFormed then [.onFlag (turnAll probes true) []]
                  else [])) s l s' l' := alone
          have setting := (alone_turn_all_iff probes false).mp turning
          rw [turned_off] at setting
          have works : ∀ front back : List Line,
              Work.stmts (front ++ back) = Work.stmts front ++ Work.stmts back := by
            intro front back
            rw [Work.stmts, List.map_append]
            exact List.map_append
          rw [works, List.append_assoc] at setting
          obtain ⟨set, ran, closing⟩ := (alone_changes_iff setToken takeToken
            (fun _ _ _ => rfl) ((filterTokens data).takeWhile wellFormed)).mp setting
          have tokens := set_tokens_eq (strsep (strstrip data)) s.disableTxStatProbes
          rw [show (strsep (strstrip data)).filter (· ≠ []) = filterTokens data from rfl, ran] at tokens
          change ((setTokens (strsep (strstrip data)) s.disableTxStatProbes >>= _)
            : Except Fault _).map _ = _
          rw [tokens, write_returned]
          cases fit : (filterTokens data).all wellFormed with
          | false =>
              rw [fit] at closing
              obtain ⟨zeroed, between, again, stepped, later⟩ :=
                (alone_work_cons_iff zeroFilter).mp closing
              obtain ⟨shared, others⟩ := Prod.mk.inj (Except.ok.inj stepped)
              rw [← shared, ← (Prod.mk.inj others).1, ← (Prod.mk.inj others).2] at later
              rw [← ((alone_nil_iff _ s' l l').mp later).1]
              rfl
          | true =>
              rw [fit] at closing
              rw [← ((alone_rearm_iff probes).mp closing).1]
              rfl
  | filterRead =>
      have listing : (code panel hit).Alone (.basic (.work printPid) ::
          [.onData noPids [putsNone] [endLine]]) s .start s' l' := (alone_init_iff _).mp alone
      obtain ⟨between, listed, ended⟩ := alone_listing pidText printPid (fun _ _ => rfl) listing
      obtain ⟨shared, frame⟩ := (alone_nil_iff s s' between l').mp ended
      rw [frame] at listed
      have listing : s.txStatsFilterRead .empty = .ok l'.seq := listed
      rw [← shared, perform, listing]
      rfl
  | outputRead =>
      have turning : (code panel hit).Alone (Basic.stmts (turnAll probes false) ++
          (.basic (.work printBit) :: .onData noPids [putsNone] [endLine] ::
            [.onFlag (turnAll probes true) []])) s .start s' l' := (alone_init_iff _).mp alone
      have listing := (alone_turn_all_iff probes false).mp turning
      rw [turned_off] at listing
      obtain ⟨between, listed, closing⟩ := alone_listing entry printBit print_bit_step listing
      obtain ⟨armed, frame⟩ := (alone_rearm_iff probes).mp closing
      rw [frame] at listed
      rw [← armed, perform, txStatsOutputRead, listed]
      rfl

end Alone

section Probe

theorem send_counts (s t : TxStat) (hit : Send) (ran : s.send hit = .ok t) :
    t = s.sent hit.probe hit.current hit.size := by
  rw [← Except.ok.inj ran]
  exact s.send_eq hit.probe hit.current hit.size

theorem send_sent (s : TxStat) (hit : Send) :
    s.send hit = .ok (s.sent hit.probe hit.current hit.size) :=
  congrArg Except.ok (s.send_eq hit.probe hit.current hit.size)

def probed : Probed panel send where
  probe := Send.probe
  off _ _ off := congrArg Except.ok (if_neg (ne_true_of_eq_false off))
  keeps s h t ran := by
    rw [s.send_counts t h ran]
    exact ⟨rfl, rfl⟩
  turns s h switch value same := by
    rw [send_sent, send_sent]
    change _ = Except.ok (panel.turn switch value (s.sent h.probe h.current h.size))
    have armed : (panel.turn switch value s).armed h.probe = s.armed h.probe := same
    unfold sent
    rw [armed]
    cases value <;> rfl

theorem opening_early : (code panel send).Early fun stmt => stmt = .basic (.work initLocals) where
  closed := by
    rintro stmt s l s' l' more rfl acted item left
    rw [← (Prod.mk.inj (Prod.mk.inj (Except.ok.inj acted)).2).2] at left
    cases left
  passes := by
    rintro stmt s l s' l' more h s'' rfl acted interrupted
    obtain ⟨shared, others⟩ := Prod.mk.inj (Except.ok.inj acted)
    rw [← shared] at interrupted
    refine Or.inr ⟨s'', interrupted, ?_⟩
    rw [← (Prod.mk.inj others).1, ← (Prod.mk.inj others).2]
    rfl

theorem filter_read_reads (stmt : Stmt panel Locals Fault) (member : stmt ∈ lines .filterRead) :
    Reads send stmt := by
  rcases List.mem_append.mp member with opening | others
  · exact Or.inl ⟨initLocals, init_overlooks, List.mem_singleton.mp opening⟩
  rcases List.mem_append.mp others with printing | listing
  · refine Or.inl ⟨printPid, ?_, List.mem_singleton.mp printing⟩
    refine reads_overlooks _ fun s h t l ran => ?_
    rw [s.send_counts t h ran]
    rfl
  · refine Or.inr ⟨_, _, _, fun _ _ _ _ _ => rfl, ?_, List.mem_singleton.mp listing⟩
    intro work member
    rcases List.mem_append.mp member with none | ending
    · rw [List.mem_singleton.mp none]
      exact none_overlooks
    · rw [List.mem_singleton.mp ending]
      exact reads_overlooks _ fun _ _ _ _ _ => rfl

theorem lines_phased (call : FileCall) : (code panel send).Phased (lines call) := by
  have all : ∀ probe : SendProbe, probe ∈ probes := fun probe => by cases probe <;> decide
  have rearm : ∀ stmt ∈ ([.onFlag (turnAll probes true) []] : List (Stmt panel Locals Fault)),
      Rearms stmt := fun stmt member => Or.inl ⟨probes, List.mem_singleton.mp member⟩
  cases call with
  | filterWrite dup data =>
      cases dup with
      | false => exact ⟨_, [], [], [], by rw [lines, if_neg Bool.false_ne_true]; rfl, reads_phases fun _ member => absurd member List.not_mem_nil⟩
      | true =>
          have closes : ∀ stmt ∈ (if (filterTokens data).all wellFormed then
              [.onFlag (turnAll probes true) []] else [] : List (Stmt panel Locals Fault)),
                Rearms stmt := by
            split_ifs
            · exact rearm
            · exact fun _ member => absurd member List.not_mem_nil
          have phases := session_phases probed probes all [] _ opening_early
            (fun work member => absurd member List.not_mem_nil)
            (Work.stmts (((filterTokens data).takeWhile wellFormed).map setToken ++
              if (filterTokens data).all wellFormed then [] else [zeroFilter])) _ (plain_works _) closes
          exact ⟨_, _, _, _, by rw [lines, if_pos rfl], phases⟩
  | filterRead =>
      have phases := reads_phases filter_read_reads
      exact ⟨_, [], [], lines .filterRead, by rw [List.nil_append, List.nil_append], phases⟩
  | outputRead =>
      have plain : ∀ stmt ∈ (Work.stmts [printBit] ++ [.onData noPids [putsNone] [endLine]]
          : List (Stmt panel Locals Fault)), IsPlain stmt := by
        intro stmt member
        rcases List.mem_append.mp member with printing | listing
        · exact Or.inl ⟨printBit, List.mem_singleton.mp printing⟩
        · exact Or.inr ⟨noPids, [putsNone], [endLine], List.mem_singleton.mp listing⟩
      have phases := session_phases probed probes all [initLocals] _ opening_early
        (fun work member => by rw [List.mem_singleton.mp member]) _ _ plain rearm
      exact ⟨_, _, _, _, by rw [lines], phases⟩

end Probe

end TxStat

end WPerf.Module
