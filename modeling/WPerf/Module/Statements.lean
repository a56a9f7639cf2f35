import WPerf.Library.Switches
import WPerf.Module.DiskTable
import WPerf.Module.PidFilter

/-!
# The statements of the operations

The bodies of both events' operations as sequences of statements, one statement
of the source each, with `event_mutex` held where the file operations hold it:
around a filter write and an output read, but only around the lookup that
precedes an enable write. Executed alone they do what the operations do.
-/

namespace WPerf.Module

open WPerf.Library
open WPerf.Library.Threads

set_option autoImplicit false

/-- The local variables of the operations: the buffer of `trace_seq_init`, a
loop index, and the number of entries printed. -/
structure Locals where
  seq : TraceSeq
  i : Nat
  m : Nat
deriving DecidableEq, Repr

def Locals.start : Locals := ⟨.empty, 0, 0⟩

section Printing

variable {Shared Switch : Type} [DecidableEq Switch] {panel : Panel Shared Switch}

def initLocals : Work panel Locals Fault := .reads fun _ _ => .ok (.start, false)

def putsNone : Work panel Locals Fault :=
  .reads fun _ l => .ok ({ l with seq := l.seq.puts "none\n".toList }, false)

/-- A token loop that skips the empty tokens and has a statement for each
other one. -/
theorem executes_tokens
    (loop : List (List Char) → Shared → Except Fault (Except Errno Unit × Shared))
    (line : List Char → Work panel Locals Fault) (takes : List Char → Bool)
    (ends : ∀ s, loop [] s = .ok (.ok (), s)) (skips : ∀ rest s, loop ([] :: rest) s = loop rest s)
    (goesOn : ∀ token rest s result, token ≠ [] → takes token = true →
      loop (token :: rest) s = .ok result →
        ∃ next, (∀ l, (line token).step s l = .ok (next, l, false)) ∧ loop rest next = .ok result)
    (tokens : List (List Char)) (s t : Shared) (l : Locals) (err : Except Errno Unit)
    (fit : (tokens.filter (· ≠ [])).all takes = true) (ran : loop tokens s = .ok (err, t)) :
    err = .ok () ∧ Executes (Work.stmts ((tokens.filter (· ≠ [])).map line)) s l t l := by
  induction tokens generalizing s with
  | nil =>
      rw [ends] at ran
      obtain ⟨same, stays⟩ := Prod.mk.inj (Except.ok.inj ran)
      rw [← stays]
      exact ⟨same.symm, Executes.nil⟩
  | cons token rest ih =>
      by_cases empty : token = []
      · rw [empty, skips] at ran
        rw [List.filter_cons_of_neg (by simpa using empty)] at fit ⊢
        exact ih s fit ran
      · rw [List.filter_cons_of_pos (by simpa using empty)] at fit ⊢
        rw [List.all_cons, Bool.and_eq_true] at fit
        obtain ⟨next, stored, remaining⟩ := goesOn token rest s _ empty fit.1 ran
        obtain ⟨accepted, later⟩ := ih next fit.2 remaining
        exact ⟨accepted, (executes_work (stored l)).cons later⟩

end Printing

/-- A filter text whose tokens the event takes. -/
structure Accepted (takes : List Char → Bool) where
  data : List Char
  fit : (filterTokens data).all takes = true

/-- What else happens to an event: filter writes that are accepted, and output
reads. -/
inductive Access (takes : List Char → Bool) where
  | filterWrite (text : Accepted takes)
  | outputRead

namespace DiskUtils

def panel : Panel DiskUtils Unit where
  flag s := s.denabled
  isOn s _ := s.armed
  store value s := { s with denabled := value }
  turn _ value s := if value then s.enableJprobe else s.disableJprobe
  flagStored _ _ := rfl
  storeKeeps _ _ := rfl
  turnKeeps _ value _ := by cases value <;> rfl
  turned _ value _ _ := by cases value <;> rfl

abbrev Line := Work panel Locals Fault

theorem store_util_quiet (s t : DiskUtils) (i : Nat) (value : Int64)
    (ran : s.storeUtil i value = .ok t) : t.denabled = s.denabled ∧ t.armed = s.armed := by
  unfold storeUtil at ran
  split_ifs at ran
  rw [← Except.ok.inj ran]
  exact ⟨rfl, rfl⟩

theorem store_name_quiet (s t : DiskUtils) (token : List Char)
    (ran : s.storeName token = .ok t) : t.denabled = s.denabled ∧ t.armed = s.armed := by
  unfold storeName at ran
  split_ifs at ran
  rw [← Except.ok.inj ran]
  exact ⟨rfl, rfl⟩

def clearIndex : Line := .reads fun _ l => .ok ({ l with i := 0 }, false)

def clearDidx : Line := .once (fun s => .ok { s with didx := 0 }) fun s s' ran => by
  rw [← Except.ok.inj ran]
  exact ⟨rfl, rfl⟩

def clearUtil : Line where
  step s l :=
    if l.i < s.didx then
      (s.storeUtil l.i 0).map fun s => (s, { l with i := l.i + 1 }, true)
    else .ok (s, l, false)
  quiet s l s' l' again ran := by
    split_ifs at ran with below
    · obtain ⟨stored, first, same⟩ := (Fallible.map_eq_ok_iff _ _ _).mp ran
      obtain ⟨denabled, armed⟩ := store_util_quiet s stored l.i 0 first
      rw [← (Prod.mk.inj same).1]
      exact ⟨denabled, funext fun _ => armed⟩
    · rw [← (Prod.mk.inj (Except.ok.inj ran)).1]
      exact ⟨rfl, rfl⟩

def copyName (token : List Char) : Line := .once (storeName · token) fun s s' ran => by
  obtain ⟨denabled, armed⟩ := store_name_quiet s s' token ran
  exact ⟨denabled, funext fun _ => armed⟩

def printEntry : Line := .reads fun s l =>
  if l.i + 1 < s.didx then
    (s.loadEntry l.i).map fun entry =>
      ({ l with seq := l.seq.printf (entry ++ [',']), i := l.i + 1 }, true)
  else .ok (l, false)

def printLast : Line := .reads fun s l =>
  (s.loadEntry l.i).map fun entry => ({ l with seq := l.seq.printf (entry ++ ['\n']) }, false)

/-- What `dutils_enable_write` does after it disabled the probe. -/
def resetTable : List Line := [clearIndex, clearUtil, clearDidx]

def session : Access fitsRow → Session panel Locals Fault
  | .filterWrite text =>
      { opening := [clearDidx]
        body := Work.stmts ((filterTokens text.data).map copyName)
        plain := plain_works _ }
  | .outputRead =>
      { opening := [initLocals]
        body := [.onData (fun s _ => s.didx = 0) [putsNone] [printEntry, printLast]]
        plain := fun _ member => Or.inr ⟨_, _, _, List.mem_singleton.mp member⟩ }

/-- An enable write on the left and a sequence of accesses on the right. -/
def race (s : DiskUtils) (locals : Side → Locals) (value : Bool)
    (accesses : List (Access fitsRow)) : System panel Locals Fault :=
  .start [()] s locals value resetTable (accesses.map session)

end DiskUtils

namespace TxStat

def panel : Panel TxStat SendProbe where
  flag s := s.txEnabled
  isOn s := s.armed
  store value s := { s with txEnabled := value }
  turn probe value s := if value then s.enableJprobe probe else s.disableJprobe probe
  flagStored _ _ := rfl
  storeKeeps _ _ := rfl
  turnKeeps _ value _ := by cases value <;> rfl
  turned _ value _ _ := by cases value <;> rfl

abbrev Line := Work panel Locals Fault

/-- The probes in the order of `disable_tx_stat_probes` and
`enable_tx_stat_probes`. -/
def probes : List SendProbe := [.tcpSendmsg, .udpSendmsg, .tcpSendpage, .udpSendpage, .sockSendmsg]

def zeroFilter : Line := .once (fun s => .ok s.bitmapZero) fun s s' ran => by
  rw [← Except.ok.inj ran]
  exact ⟨rfl, rfl⟩

def setToken (token : List Char) : Line :=
  .once (fun s =>
    match kstrtoul token with
    | .error _ => .ok s
    | .ok pid => s.bitmapSet pid) fun s s' ran => by
  cases number : kstrtoul token with
  | error errno =>
      rw [number] at ran
      rw [← Except.ok.inj ran]
      exact ⟨rfl, rfl⟩
  | ok pid =>
      rw [number] at ran
      change s.bitmapSet pid = _ at ran
      unfold bitmapSet at ran
      split_ifs at ran
      rw [← Except.ok.inj ran]
      exact ⟨rfl, rfl⟩

def findNextBit (s : TxStat) (i : Nat) : Option Pid := s.setBits.find? fun n => i ≤ n.val

def printBit : Line := .reads fun s l =>
  match s.findNextBit l.i with
  | none => .ok (l, false)
  | some n =>
      .ok ({ seq := l.seq.printf (s.entry n ++ [',']), i := n.val + 1, m := l.m + 1 }, true)

def endLine : Line := .reads fun _ l => l.seq.nl.map fun seq => ({ l with seq := seq }, false)

def session : Access wellFormed → Session panel Locals Fault
  | .filterWrite text =>
      { opening := []
        body := Work.stmts ((filterTokens text.data).map setToken)
        plain := plain_works _ }
  | .outputRead =>
      { opening := [initLocals]
        body := [.basic (.work printBit), .onData (fun _ l => l.m = 0) [putsNone] [endLine]]
        plain := fun stmt member => by
          rcases List.mem_cons.mp member with first | second
          · exact Or.inl ⟨_, first⟩
          · exact Or.inr ⟨_, _, _, List.mem_singleton.mp second⟩ }

def race (s : TxStat) (locals : Side → Locals) (value : Bool)
    (accesses : List (Access wellFormed)) : System panel Locals Fault :=
  .start probes s locals value [zeroFilter] (accesses.map session)

end TxStat

namespace DiskUtils

theorem executes_clear_utils (count : Nat) (s t : DiskUtils) (l : Locals)
    (left : l.i + count = s.didx)
    (ran : (List.range' l.i count).foldlM (fun s i => s.storeUtil i 0) s = .ok t) :
    Executes [.basic (.work clearUtil)] s l t { l with i := s.didx } := by
  induction count generalizing s l with
  | zero =>
      have same : s = t := Except.ok.inj ran
      have done : clearUtil.step s l = .ok (s, l, false) := if_neg (by omega)
      rw [← same, ← left]
      exact executes_work done
  | succ count ih =>
      obtain ⟨next, stored, remaining⟩ :=
        (Fallible.foldlM_cons_eq_ok_iff _ _ _ s t).mp ran
      have round : clearUtil.step s l = .ok (next, { l with i := l.i + 1 }, true) := by
        change (if l.i < s.didx then _ else _) = _
        rw [if_pos (by omega), stored]
        rfl
      have kept : next.didx = s.didx := by
        unfold storeUtil at stored
        split_ifs at stored
        rw [← Except.ok.inj stored]
      have later := ih next { l with i := l.i + 1 } (by rw [kept, ← left]; simp only []; omega)
        remaining
      rw [kept] at later
      exact executes_again round later

/-- Alone an enable write does what `dutils_enable_write` does. -/
theorem enable_write_alone (s t : DiskUtils) (value : Bool) (idle l : Locals)
    (ran : s.dutilsEnableWrite value = .ok t) :
    ∃ l', Becomes (.alone s none idle l (storing [()] value resetTable))
      (.alone t none idle l' []) := by
  unfold dutilsEnableWrite at ran
  cases value with
  | true =>
      refine ⟨l, alone_storing [()] ?_⟩
      rw [← Except.ok.inj ran]
      exact executes_turn_all [()] true
  | false =>
      dsimp only at ran
      obtain ⟨cleared, loop, same⟩ := (Fallible.bind_eq_ok_iff _ _ t).mp ran
      rw [List.range_eq_range'] at loop
      have utils := executes_clear_utils s.didx _ cleared { l with i := 0 } (by simp [disableJprobe])
        loop
      have didx : clearDidx.step cleared { l with i := s.didx } =
          .ok ({ cleared with didx := 0 }, { l with i := s.didx }, false) := rfl
      refine ⟨{ l with i := s.didx }, alone_storing [()] ?_⟩
      rw [← Except.ok.inj same]
      have index : clearIndex.step ({ s with denabled := false }.disableJprobe) l =
          .ok ({ s with denabled := false }.disableJprobe, { l with i := 0 }, false) := rfl
      exact (executes_turn () false).cons
        ((executes_work index).cons (utils.cons (executes_work didx)))

theorem executes_store_tokens (tokens : List (List Char)) (s t : DiskUtils) (l : Locals)
    (err : Except Errno Unit) (fit : (tokens.filter (· ≠ [])).all fitsRow = true)
    (ran : storeTokens tokens s = .ok (err, t)) :
    err = .ok () ∧ Executes (Work.stmts ((tokens.filter (· ≠ [])).map copyName)) s l t l := by
  refine executes_tokens storeTokens copyName fitsRow (fun _ => rfl) (fun _ _ => rfl) ?_ tokens s t
    l err fit ran
  intro token rest s result nonempty fits ran
  have short : token.length + 1 ≤ maxDnameSize := of_decide_eq_true fits
  unfold storeTokens at ran
  rw [if_neg nonempty, if_neg (by omega)] at ran
  obtain ⟨next, stored, remaining⟩ := (Fallible.bind_eq_ok_iff _ _ _).mp ran
  refine ⟨next, fun l => ?_, remaining⟩
  change (s.storeName token).map _ = _
  rw [stored]
  rfl

theorem filter_write_alone (s t : DiskUtils) (text : Accepted fitsRow)
    (err : Except Errno Unit) (idle l : Locals)
    (ran : s.dutilsFilterWrite true text.data = .ok (err, t)) :
    err = .ok () ∧ Becomes (.alone s none idle l ((session (.filterWrite text)).stmts [()]))
      (.alone t none idle l []) := by
  change (storeTokens (strsep (strstrip text.data)) { s with didx := 0, armed := false } >>= _) =
    _ at ran
  obtain ⟨⟨outcome, stored⟩, loop, same⟩ := (Fallible.bind_eq_ok_iff _ _ _).mp ran
  obtain ⟨accepted, copies⟩ := executes_store_tokens _ _ stored l outcome text.fit loop
  rw [accepted] at same
  obtain ⟨ok, ends⟩ := Prod.mk.inj (Except.ok.inj same)
  have opens : Executes (Work.stmts [clearDidx]) s l { s with didx := 0 } l := executes_work rfl
  rw [← ends]
  exact ⟨ok.symm, alone_session [()] (session (.filterWrite text)) opens copies⟩

end DiskUtils

namespace DiskUtils

theorem executes_print (count : Nat) (s : DiskUtils) (l : Locals) (entries : List (List Char))
    (left : l.i + count + 1 = s.didx)
    (loaded : (List.range' l.i (count + 1)).mapM s.loadEntry = .ok entries) :
    ∃ i, Executes (Work.stmts [printEntry, printLast]) s l s
      { l with seq := l.seq.printList entries, i := i } := by
  induction count generalizing l entries with
  | zero =>
      obtain ⟨entry, others, first, none, same⟩ :=
        (Fallible.mapM_cons_eq_ok_iff s.loadEntry l.i [] entries).mp loaded
      have noOthers : [] = others := Except.ok.inj none
      rw [← same, ← noOthers]
      have exit : printEntry.step s l = .ok (s, l, false) := by
        change Except.map _ (if l.i + 1 < s.didx then _ else _) = _
        rw [if_neg (by omega)]
        rfl
      have last : printLast.step s l =
          .ok (s, { l with seq := l.seq.printf (entry ++ ['\n']) }, false) := by
        change Except.map _ (Except.map _ (s.loadEntry l.i)) = _
        rw [first]
        rfl
      exact ⟨l.i, (executes_work exit).cons (executes_work last)⟩
  | succ count ih =>
      obtain ⟨entry, others, first, later, same⟩ :=
        (Fallible.mapM_cons_eq_ok_iff s.loadEntry l.i _ entries).mp loaded
      obtain ⟨second, more, _, _, split⟩ :=
        (Fallible.mapM_cons_eq_ok_iff s.loadEntry (l.i + 1) _ others).mp later
      have round : printEntry.step s l = .ok (s,
          { l with seq := l.seq.printf (entry ++ [',']), i := l.i + 1 }, true) := by
        change Except.map _ (if l.i + 1 < s.didx then _ else _) = _
        rw [if_pos (by omega), first]
        rfl
      obtain ⟨i, prints⟩ := ih { l with seq := l.seq.printf (entry ++ [',']), i := l.i + 1 } others
        (by simp only []; omega) later
      refine ⟨i, ?_⟩
      rw [← same, ← split]
      rw [← split] at prints
      exact executes_again round prints

theorem output_read_alone (s t : DiskUtils) (seq : TraceSeq) (idle l : Locals)
    (ran : s.dutilsOutputRead .empty = .ok (seq, t)) :
    ∃ l' : Locals, l'.seq = seq ∧
      Becomes (.alone s none idle l ((session .outputRead).stmts [()]))
        (.alone t none idle l' []) := by
  change ((if s.didx = 0 then _ else _) >>= _) = _ at ran
  obtain ⟨printed, prints, same⟩ := (Fallible.bind_eq_ok_iff _ _ _).mp ran
  obtain ⟨first, ends⟩ := Prod.mk.inj (Except.ok.inj same)
  have opens : Executes (Work.stmts [(initLocals : Line)]) s l s .start := executes_work rfl
  have body : ∃ l', l'.seq = printed ∧
      Executes (session .outputRead).body (turnedAll [()] panel false s) .start
        s.disableJprobe l' := by
    by_cases empty : s.didx = 0
    · rw [if_pos empty] at prints
      refine ⟨{ Locals.start with seq := TraceSeq.empty.puts "none\n".toList },
        Except.ok.inj prints, ?_⟩
      apply executes_on_data
      have zero : decide ((turnedAll [()] panel false s).didx = 0) = true := decide_eq_true empty
      rw [if_pos zero]
      exact executes_work rfl
    · rw [if_neg empty] at prints
      obtain ⟨entries, loaded, listed⟩ := (Fallible.bind_eq_ok_iff _ _ _).mp prints
      obtain ⟨count, more⟩ := Nat.exists_eq_succ_of_ne_zero empty
      rw [List.range_eq_range', show s.disableJprobe.didx = count + 1 from more] at loaded
      obtain ⟨i, lines⟩ := executes_print count s.disableJprobe .start entries
        (by rw [Locals.start]; simp only [disableJprobe]; omega) loaded
      refine ⟨⟨TraceSeq.empty.printList entries, i, 0⟩, Except.ok.inj listed,
        executes_on_data ?_⟩
      rw [if_neg (by rw [decide_eq_true_iff]; exact empty)]
      exact lines
  obtain ⟨stop, output, works⟩ := body
  refine ⟨stop, output.trans first, ?_⟩
  rw [← ends]
  exact alone_session [()] (session .outputRead) opens works

end DiskUtils

namespace TxStat

theorem enable_write_alone (s t : TxStat) (value : Bool) (idle l : Locals)
    (ran : s.txStatsEnableWrite value = .ok t) :
    Becomes (.alone s none idle l (storing probes value [zeroFilter]))
      (.alone t none idle l []) := by
  unfold txStatsEnableWrite at ran
  cases value with
  | true =>
      apply alone_storing
      rw [← Except.ok.inj ran]
      exact executes_turn_all probes true
  | false =>
      apply alone_storing
      rw [← Except.ok.inj ran]
      have zeroed : zeroFilter.step ({ s with txEnabled := false }.disableTxStatProbes) l =
          .ok (({ s with txEnabled := false }.disableTxStatProbes).bitmapZero, l, false) := rfl
      exact (executes_turn_all probes false).append (executes_work zeroed)

theorem executes_set_tokens (tokens : List (List Char)) (s t : TxStat) (l : Locals)
    (err : Except Errno Unit) (fit : (tokens.filter (· ≠ [])).all wellFormed = true)
    (ran : setTokens tokens s = .ok (err, t)) :
    err = .ok () ∧ Executes (Work.stmts ((tokens.filter (· ≠ [])).map setToken)) s l t l := by
  refine executes_tokens setTokens setToken wellFormed (fun _ => rfl) (fun _ _ => rfl) ?_ tokens s t
    l err fit ran
  intro token rest s result nonempty number ran
  unfold setTokens at ran
  rw [if_neg nonempty] at ran
  cases value : kstrtoul token with
  | error errno =>
      rw [wellFormed, value] at number
      cases number
  | ok pid =>
      rw [value] at ran
      obtain ⟨next, stored, remaining⟩ := (Fallible.bind_eq_ok_iff _ _ _).mp ran
      refine ⟨next, fun l => ?_, remaining⟩
      change Except.map _ (match kstrtoul token with
        | .error _ => .ok s
        | .ok pid => s.bitmapSet pid) = _
      rw [value]
      change Except.map _ (s.bitmapSet pid) = _
      rw [stored]
      rfl

theorem filter_write_alone (s t : TxStat) (text : Accepted wellFormed)
    (err : Except Errno Unit) (idle l : Locals)
    (ran : s.txStatsFilterWrite true text.data = .ok (err, t)) :
    err = .ok () ∧ Becomes (.alone s none idle l ((session (.filterWrite text)).stmts probes))
      (.alone t none idle l []) := by
  change (setTokens (strsep (strstrip text.data)) s.disableTxStatProbes >>= _) = _ at ran
  obtain ⟨⟨outcome, set⟩, loop, same⟩ := (Fallible.bind_eq_ok_iff _ _ _).mp ran
  obtain ⟨accepted, sets⟩ := executes_set_tokens _ _ set l outcome text.fit loop
  rw [accepted] at same
  obtain ⟨ok, ends⟩ := Prod.mk.inj (Except.ok.inj same)
  rw [← ends]
  exact ⟨ok.symm, alone_session probes (session (.filterWrite text)) Executes.nil sets⟩

theorem find_next_bit_eq (s : TxStat) (i : Nat) :
    s.findNextBit i = (s.setBits.filter fun n => i ≤ n.val).head? :=
  List.head?_filter.symm

/-- The bits above the one that was found are the ones that were left behind
it. -/
theorem set_bits_above (s : TxStat) (i : Nat) (n : Pid) (rest : List Pid)
    (left : (s.setBits.filter fun m => i ≤ m.val) = n :: rest) :
    (s.setBits.filter fun m => n.val + 1 ≤ m.val) = rest := by
  have ordered := s.set_bits_ordered.filter fun m => decide (i ≤ m.val)
  rw [left] at ordered
  have later := (List.pairwise_cons.mp ordered).1
  have atLeast : i ≤ n.val := by
    have member : n ∈ s.setBits.filter fun m => i ≤ m.val := by
      rw [left]
      exact List.mem_cons_self
    exact of_decide_eq_true (List.mem_filter.mp member).2
  have narrowed : (s.setBits.filter fun m => n.val + 1 ≤ m.val) =
      (s.setBits.filter fun m => i ≤ m.val).filter fun m => n.val + 1 ≤ m.val := by
    rw [List.filter_filter]
    apply List.filter_congr
    intro m _
    rw [← Bool.decide_and]
    exact decide_eq_decide.mpr ⟨fun beyond => ⟨beyond, by omega⟩, fun both => both.1⟩
  rw [narrowed, left, List.filter_cons_of_neg (by simp)]
  apply List.filter_eq_self.mpr
  intro m member
  exact decide_eq_true (later m member)

theorem executes_print_bits (bits : List Pid) (s : TxStat) (l : Locals)
    (left : (s.setBits.filter fun n => l.i ≤ n.val) = bits) :
    ∃ i, Executes [.basic (.work printBit)] s l s
      { seq := bits.foldl (fun seq n => seq.printf (s.entry n ++ [','])) l.seq, i := i,
        m := l.m + bits.length } := by
  induction bits generalizing l with
  | nil =>
      have past : s.findNextBit l.i = none := by
        rw [find_next_bit_eq, left]
        rfl
      have exit : printBit.step s l = .ok (s, l, false) := by
        unfold printBit Work.reads
        dsimp only
        rw [past]
        rfl
      exact ⟨l.i, executes_work exit⟩
  | cons n rest ih =>
      have next : s.findNextBit l.i = some n := by
        rw [find_next_bit_eq, left]
        rfl
      have round : printBit.step s l = .ok (s,
          { seq := l.seq.printf (s.entry n ++ [',']), i := n.val + 1, m := l.m + 1 }, true) := by
        unfold printBit Work.reads
        dsimp only
        rw [next]
        rfl
      obtain ⟨i, prints⟩ := ih
        { seq := l.seq.printf (s.entry n ++ [',']), i := n.val + 1, m := l.m + 1 }
        (s.set_bits_above l.i n rest left)
      refine ⟨i, ?_⟩
      have count : l.m + (n :: rest).length = l.m + 1 + rest.length := by
        rw [List.length_cons]
        omega
      rw [count]
      exact executes_again round prints

theorem output_read_alone (s t : TxStat) (seq : TraceSeq) (idle l : Locals)
    (ran : s.txStatsOutputRead .empty = .ok (seq, t)) :
    ∃ l' : Locals, l'.seq = seq ∧
      Becomes (.alone s none idle l ((session .outputRead).stmts probes))
        (.alone t none idle l' []) := by
  change (endList (s.disableTxStatProbes.setBits.map s.disableTxStatProbes.entry) .empty >>= _) = _
    at ran
  obtain ⟨printed, prints, same⟩ := (Fallible.bind_eq_ok_iff _ _ _).mp ran
  obtain ⟨first, ends⟩ := Prod.mk.inj (Except.ok.inj same)
  have opens : Executes (Work.stmts [(initLocals : Line)]) s l s .start := executes_work rfl
  have all : (s.disableTxStatProbes.setBits.filter fun n => Locals.start.i ≤ n.val) =
      s.disableTxStatProbes.setBits := List.filter_eq_self.mpr fun n _ => decide_eq_true (Nat.zero_le _)
  obtain ⟨i, bits⟩ := executes_print_bits _ s.disableTxStatProbes .start all
  unfold endList at prints
  rw [List.foldl_map] at prints
  have body : ∃ l', l'.seq = printed ∧
      Executes (session .outputRead).body (turnedAll probes panel false s) .start
        s.disableTxStatProbes l' := by
    by_cases empty : s.disableTxStatProbes.setBits = []
    · rw [empty] at prints bits
      refine ⟨⟨TraceSeq.empty.puts "none\n".toList, i, 0⟩, Except.ok.inj prints, bits.cons ?_⟩
      exact executes_on_data (executes_work rfl)
    · rw [if_neg (by simpa using empty)] at prints
      have filled : ¬0 + s.disableTxStatProbes.setBits.length = 0 := by
        rw [Nat.zero_add]
        exact fun zero => empty (List.length_eq_zero_iff.mp zero)
      refine ⟨⟨printed, i, 0 + s.disableTxStatProbes.setBits.length⟩, rfl,
        bits.cons (executes_on_data ?_)⟩
      rw [if_neg (by rw [decide_eq_true_iff]; exact filled)]
      apply executes_work
      unfold endLine Work.reads
      dsimp only [Locals.start]
      rw [prints]
      rfl
  obtain ⟨stop, output, works⟩ := body
  refine ⟨stop, output.trans first, ?_⟩
  rw [← ends]
  exact alone_session probes (session .outputRead) opens works

end TxStat

end WPerf.Module
