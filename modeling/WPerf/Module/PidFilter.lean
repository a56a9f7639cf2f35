import WPerf.Library.Runs
import WPerf.Module.TxStat

/-!
# What the operations do to the pid filter

One lemma for each operation of the tx_stat event, and from them the inversion
of a step.
-/

namespace WPerf.Module

open WPerf.Library

set_option autoImplicit false

def wellFormed (token : List Char) : Bool := (kstrtoul token).toBool

def namesPid (p : Pid) (token : List Char) : Bool :=
  match kstrtoul token with
  | .ok pid => p.val == pid.toUInt32.toNat
  | .error _ => false

def inRange (token : List Char) : Bool :=
  match kstrtoul token with
  | .ok pid => decide (pid.toUInt32.toNat < pidMaxLimit)
  | .error _ => false

namespace TxStat

theorem disable_probes_eq (s : TxStat) :
    s.disableTxStatProbes = { s with armed := fun _ => false } := by
  have off : s.disableTxStatProbes.armed = fun _ => false := by
    funext probe
    cases probe <;> rfl
  change { s with armed := s.disableTxStatProbes.armed } = _
  rw [off]

theorem enable_probes_eq (s : TxStat) :
    s.enableTxStatProbes = { s with armed := fun _ => true } := by
  have on : s.enableTxStatProbes.armed = fun _ => true := by
    funext probe
    cases probe <;> rfl
  change { s with armed := s.enableTxStatProbes.armed } = _
  rw [on]

theorem rearmed (s : TxStat) :
    (if s.txEnabled then s.disableTxStatProbes.enableTxStatProbes else s.disableTxStatProbes) =
      { s with armed := fun _ => s.txEnabled } := by
  rw [enable_probes_eq, disable_probes_eq]
  obtain ⟨filter, txStats, txEnabled, armed⟩ := s
  cases txEnabled <;> rfl

theorem enable_write_eq (s : TxStat) (value : Bool) :
    s.txStatsEnableWrite value = .ok { s with
      txEnabled := value
      armed := fun _ => value
      filter := fun p => value && s.filter p } := by
  cases value with
  | true =>
      change Except.ok { s with txEnabled := true }.enableTxStatProbes = _
      rw [enable_probes_eq]
      rfl
  | false =>
      change Except.ok { s with txEnabled := false }.disableTxStatProbes.bitmapZero = _
      rw [disable_probes_eq]
      rfl

theorem well_formed_ok {token : List Char} {pid : UInt64} (number : kstrtoul token = .ok pid) :
    wellFormed token = true := by
  unfold wellFormed
  rw [number]
  rfl

theorem well_formed_error {token : List Char} {errno : Errno}
    (number : kstrtoul token = .error errno) : wellFormed token = false := by
  unfold wellFormed
  rw [number]
  rfl

theorem bitmap_set_names {token : List Char} {pid : UInt64} (number : kstrtoul token = .ok pid)
    {s t : TxStat} (set : s.bitmapSet pid = .ok t) :
    t = { s with filter := fun p => s.filter p || namesPid p token } := by
  unfold bitmapSet at set
  split_ifs at set with bound
  rw [← Except.ok.inj set]
  congr 1
  funext p
  unfold namesPid
  rw [number]
  dsimp only
  by_cases here : p.val = pid.toUInt32.toNat
  · rw [if_pos here, beq_iff_eq.mpr here, Bool.or_true]
  · rw [if_neg here, beq_eq_false_iff_ne.mpr here, Bool.or_false]

/-- What the token loop does, if it does not leave the bitmap: all pids are
added, or a malformed token clears everything. -/
theorem set_tokens_spec (tokens : List (List Char)) (s t : TxStat) (err : Except Errno Unit)
    (ran : setTokens tokens s = .ok (err, t)) :
    if (tokens.filter (· ≠ [])).all wellFormed then
      err = .ok () ∧
        t = { s with filter := fun p => s.filter p || (tokens.filter (· ≠ [])).any (namesPid p) }
    else err = .error .einval ∧ t = s.bitmapZero := by
  induction tokens generalizing s with
  | nil =>
      obtain ⟨accepted, same⟩ := Prod.mk.inj (Except.ok.inj ran)
      rw [List.filter_nil, List.all_nil, if_pos rfl, ← same]
      refine ⟨accepted.symm, ?_⟩
      simp
  | cons token rest ih =>
      unfold setTokens at ran
      by_cases empty : token = []
      · rw [if_pos empty] at ran
        rw [List.filter_cons_of_neg (by simpa using empty)]
        exact ih s ran
      · rw [if_neg empty] at ran
        rw [List.filter_cons_of_pos (by simpa using empty), List.all_cons]
        cases number : kstrtoul token with
        | error errno =>
            rw [number] at ran
            obtain ⟨rejected, same⟩ := Prod.mk.inj (Except.ok.inj ran)
            rw [well_formed_error number, Bool.false_and, if_neg Bool.false_ne_true]
            exact ⟨rejected.symm, same.symm⟩
        | ok pid =>
            rw [number] at ran
            obtain ⟨middle, set, remaining⟩ := (Fallible.bind_eq_ok_iff _ _ _).mp ran
            have later := ih middle remaining
            have added := bitmap_set_names number set
            rw [well_formed_ok number, Bool.true_and]
            split_ifs at later ⊢ with fit
            · refine ⟨later.1, ?_⟩
              rw [later.2, added]
              congr 1
              funext p
              rw [List.any_cons, Bool.or_assoc]
            · refine ⟨later.1, ?_⟩
              rw [later.2, added]
              rfl

/-- The token loop stays in the bitmap exactly when every token before the
first malformed one names a pid below the limit. -/
theorem set_tokens_ok_iff (tokens : List (List Char)) (s : TxStat) :
    (∃ result, setTokens tokens s = .ok result) ↔
      ∀ token ∈ (tokens.filter (· ≠ [])).takeWhile wellFormed, inRange token = true := by
  induction tokens generalizing s with
  | nil => exact iff_of_true ⟨_, rfl⟩ fun token member => absurd member List.not_mem_nil
  | cons token rest ih =>
      unfold setTokens
      by_cases empty : token = []
      · rw [if_pos empty, List.filter_cons_of_neg (by simpa using empty)]
        exact ih s
      · rw [if_neg empty, List.filter_cons_of_pos (by simpa using empty)]
        cases number : kstrtoul token with
        | error errno =>
            rw [List.takeWhile_cons_of_neg (ne_true_of_eq_false (well_formed_error number))]
            exact iff_of_true ⟨_, rfl⟩ fun token member => absurd member List.not_mem_nil
        | ok pid =>
            have range : inRange token = decide (pid.toUInt32.toNat < pidMaxLimit) := by
              unfold inRange
              rw [number]
            rw [List.takeWhile_cons_of_pos (well_formed_ok number), List.forall_mem_cons, range, decide_eq_true_iff]
            dsimp only
            unfold bitmapSet
            split_ifs with bound
            · rw [← ih { s with filter := fun p =>
                if p.val = pid.toUInt32.toNat then true else s.filter p }]
              constructor
              · exact fun ran => ⟨bound, ran⟩
              · exact fun ran => ran.2
            · constructor
              · intro ⟨result, ran⟩
                cases ran
              · exact fun inside => absurd inside.1 bound

def refiltered (s : TxStat) (data : List Char) : TxStat :=
  if (filterTokens data).all wellFormed then
    { s with
      filter := fun p => s.filter p || (filterTokens data).any (namesPid p)
      armed := fun _ => s.txEnabled }
  else { s with filter := fun _ => false, armed := fun _ => false }

theorem filter_write_spec (s t : TxStat) (data : List Char) (err : Except Errno Unit)
    (ran : s.txStatsFilterWrite true data = .ok (err, t)) : t = s.refiltered data := by
  change (setTokens (strsep (strstrip data)) s.disableTxStatProbes >>= _) = _ at ran
  obtain ⟨⟨verdict, middle⟩, loop, done⟩ := (Fallible.bind_eq_ok_iff _ _ _).mp ran
  have spec := set_tokens_spec _ _ _ _ loop
  unfold refiltered filterTokens
  split_ifs at spec ⊢ with fit
  · rw [spec.1, spec.2, disable_probes_eq] at done
    have same : t = if s.txEnabled then _ else _ := (Prod.mk.inj (Except.ok.inj done)).2.symm
    rw [same, enable_probes_eq]
    cases s.txEnabled <;> rfl
  · rw [spec.1, spec.2, disable_probes_eq] at done
    exact (Prod.mk.inj (Except.ok.inj done)).2.symm

def sent (s : TxStat) (probe : SendProbe) (current : Pid) (size : UInt64) : TxStat :=
  { s with txStats := fun p =>
      if s.armed probe && s.filter current && p = current then
        ((s.txStats p).toUInt64 + size).toInt64
      else s.txStats p }

theorem send_eq (s : TxStat) (probe : SendProbe) (current : Pid) (size : UInt64) :
    (if s.armed probe then s.onSend probe current size else s) = s.sent probe current size := by
  have body : onSend probe current size s = s.countSend current size := by
    cases probe <;> rfl
  have idle : ∀ bit : Bool, bit = false → s = { s with txStats := fun p =>
      if bit && p = current then ((s.txStats p).toUInt64 + size).toInt64 else s.txStats p } := by
    intro bit off
    rw [off]
    rfl
  unfold sent
  rw [body]
  unfold countSend
  cases armed : s.armed probe with
  | false => exact idle _ rfl
  | true =>
      cases watched : s.filter current with
      | false => exact idle _ rfl
      | true =>
          rw [if_pos rfl, if_pos rfl]
          simp

def moved (s : TxStat) : TxOp → TxStat
  | .writeEnable ubuf =>
      match enableValue ubuf with
      | some value =>
          { s with
            txEnabled := value
            armed := fun _ => value
            filter := fun p => value && s.filter p }
      | none => s
  | .writeFilter page dup ubuf =>
      if ubuf.length < pageSize ∧ page ∧ dup then s.refiltered (cString ubuf) else s
  | .readOutput => { s with armed := fun _ => s.txEnabled }
  | .send probe current size => s.sent probe current size
  | .readEnable => s
  | .readFilter => s
  | .writeOutput => s

theorem write_filter_moved (s t : TxStat) (page dup : Bool) (ubuf : List Char)
    (ran : (filterWriteGeneric (txStatsFilterWrite dup) page ubuf s).map Prod.snd = .ok t) :
    t = s.moved (.writeFilter page dup ubuf) := by
  rw [filter_write_state] at ran
  unfold moved
  dsimp only
  by_cases reached : ubuf.length < pageSize ∧ page
  · rw [if_pos reached] at ran
    cases dup with
    | false =>
        rw [if_neg fun all => absurd all.2.2 Bool.false_ne_true]
        exact (Except.ok.inj ran).symm
    | true =>
        rw [if_pos ⟨reached.1, reached.2, rfl⟩]
        obtain ⟨⟨err, next⟩, write, same⟩ := (Fallible.map_eq_ok_iff _ _ _).mp ran
        rw [← same]
        exact s.filter_write_spec next (cString ubuf) err write
  · rw [if_neg reached] at ran
    rw [if_neg fun all => reached ⟨all.1, all.2.1⟩]
    exact (Except.ok.inj ran).symm

theorem step_moved (s t : TxStat) (op : TxOp) (ran : s.step op = .ok t) : t = s.moved op := by
  cases op with
  | writeEnable ubuf =>
      unfold step at ran
      dsimp only at ran
      rw [enable_write_state] at ran
      unfold moved
      dsimp only
      cases value : enableValue ubuf with
      | none =>
          rw [value] at ran
          exact (Except.ok.inj ran).symm
      | some value' =>
          rw [value] at ran
          dsimp only at ran
          rw [enable_write_eq] at ran
          exact (Except.ok.inj ran).symm
  | readEnable => exact (Except.ok.inj ran).symm
  | writeFilter page dup ubuf => exact s.write_filter_moved t page dup ubuf ran
  | readFilter =>
      unfold step at ran
      obtain ⟨seq, _, same⟩ := (Fallible.map_eq_ok_iff _ _ _).mp ran
      exact same.symm
  | writeOutput => exact (Except.ok.inj ran).symm
  | readOutput =>
      unfold step at ran
      obtain ⟨result, read, same⟩ := (Fallible.map_eq_ok_iff _ _ _).mp ran
      unfold txStatsOutputRead at read
      obtain ⟨seq, _, done⟩ := (Fallible.bind_eq_ok_iff _ _ _).mp read
      rw [← same, ← Except.ok.inj done]
      exact s.rearmed
  | send probe current size =>
      rw [← Except.ok.inj ran]
      exact s.send_eq probe current size

/-- A list with short entries ends without a fault: its first entry fits. -/
theorem end_list_ok (entries : List (List Char))
    (short : ∀ entry ∈ entries, entry ≠ [] ∧ entry.length < 100) :
    ∃ seq, endList entries .empty = .ok seq := by
  have grows : ∀ (seq : TraceSeq) (text : List Char),
      seq.buffer.length ≤ (seq.printf text).buffer.length := by
    intro seq text
    unfold TraceSeq.printf
    split_ifs
    · exact Nat.le_refl _
    · exact Nat.le_refl _
    · simp
  have folded : ∀ (rest : List (List Char)) (seq : TraceSeq), seq.buffer.length ≤
      (rest.foldl (fun seq entry => seq.printf (entry ++ [','])) seq).buffer.length := by
    intro rest
    induction rest with
    | nil => exact fun seq => Nat.le_refl _
    | cons entry rest ih => exact fun seq => Nat.le_trans (grows seq _) (ih _)
  unfold endList
  cases entries with
  | nil => exact ⟨_, rfl⟩
  | cons entry rest =>
      obtain ⟨nonempty, small⟩ := short entry List.mem_cons_self
      have positive := List.length_pos_of_ne_nil nonempty
      have first : (TraceSeq.empty.printf (entry ++ [','])).buffer = entry ++ [','] := by
        have room : ¬(entry ++ [',']).length ≥ pageSize - 1 - TraceSeq.empty.buffer.length := by
          change ¬(entry ++ [',']).length ≥ 4095
          rw [List.length_append, List.length_singleton]
          omega
        unfold TraceSeq.printf
        rw [if_neg room]
        rfl
      have whole := folded rest (TraceSeq.empty.printf (entry ++ [',']))
      rw [first, List.length_append, List.length_singleton] at whole
      rw [if_neg (by simp)]
      unfold TraceSeq.nl
      rw [List.foldl_cons, if_neg (by omega)]
      exact ⟨_, rfl⟩

theorem decimal_short (n : Int) (fits : n.natAbs < 10 ^ 20) :
    Text.decimal n ≠ [] ∧ (Text.decimal n).length ≤ 21 := by
  have digits := (Nat.length_toDigits_le_iff (b := 10) (by decide) (by decide)).mpr fits
  refine ⟨Text.decimal_ne_nil n, ?_⟩
  unfold Text.decimal
  split_ifs
  · rw [List.length_cons]
    omega
  · omega

theorem pid_short (p : Pid) : Text.decimal p.val ≠ [] ∧ (Text.decimal p.val).length ≤ 21 := by
  apply decimal_short
  have bound : p.val < 4 * 1024 * 1024 := p.isLt
  omega

theorem entry_short (s : TxStat) (n : Pid) : s.entry n ≠ [] ∧ (s.entry n).length < 100 := by
  have pid := (pid_short n).2
  have low := (s.txStats n).le_toInt
  have high := (s.txStats n).toInt_lt
  have bytes := (decimal_short (s.txStats n).toInt (by omega)).2
  unfold entry
  refine ⟨by simp, ?_⟩
  rw [List.length_append, List.length_cons]
  omega

theorem set_bits_ordered (s : TxStat) : s.setBits.Pairwise fun m n => m.val < n.val :=
  (List.pairwise_lt_finRange pidMaxLimit).filter _

theorem output_read_ok (s : TxStat) :
    ∃ seq, endList (s.setBits.map s.entry) .empty = .ok seq ∧
      s.txStatsOutputRead .empty = .ok (seq, { s with armed := fun _ => s.txEnabled }) := by
  obtain ⟨seq, ended⟩ := end_list_ok (s.setBits.map s.entry) (by
    intro entry member
    obtain ⟨n, _, same⟩ := List.mem_map.mp member
    rw [← same]
    exact s.entry_short n)
  have disabled : s.disableTxStatProbes.setBits.map s.disableTxStatProbes.entry =
      s.setBits.map s.entry := by
    rw [disable_probes_eq]
    rfl
  refine ⟨seq, ended, ?_⟩
  unfold txStatsOutputRead
  dsimp only
  rw [disabled, ended]
  exact congrArg (fun t => Except.ok (seq, t)) s.rearmed

end TxStat

/-- A filter text that reaches the token loop names only pids below the limit
before its first malformed token. -/
def TxOp.InBounds : TxOp → Prop
  | .writeFilter page dup ubuf =>
      ubuf.length < pageSize ∧ page ∧ dup →
        ∀ token ∈ (filterTokens (cString ubuf)).takeWhile wellFormed, inRange token = true
  | _ => True

namespace TxStat

theorem write_filter_ok_iff (s : TxStat) (page dup : Bool) (ubuf : List Char) :
    (∃ t, (filterWriteGeneric (txStatsFilterWrite dup) page ubuf s).map Prod.snd = .ok t) ↔
      (TxOp.writeFilter page dup ubuf).InBounds := by
  unfold TxOp.InBounds
  dsimp only
  rw [filter_write_state]
  by_cases paged : ubuf.length < pageSize ∧ page
  · rw [if_pos paged]
    cases dup with
    | false => exact iff_of_true ⟨s, rfl⟩ fun reached => absurd reached.2.2 Bool.false_ne_true
    | true =>
        have loop := set_tokens_ok_iff (strsep (strstrip (cString ubuf))) s.disableTxStatProbes
        change _ ↔ ∀ token ∈ (filterTokens (cString ubuf)).takeWhile wellFormed, _ at loop
        constructor
        · intro ⟨t, ran⟩ _
          apply loop.mp
          cases tokens : setTokens (strsep (strstrip (cString ubuf))) s.disableTxStatProbes with
          | ok result => exact ⟨result, rfl⟩
          | error fault =>
              change (Except.map Prod.snd (setTokens _ _ >>= _)) = _ at ran
              rw [tokens] at ran
              cases ran
        · intro inside
          obtain ⟨⟨err, t⟩, ran⟩ := loop.mpr (inside ⟨paged.1, paged.2, rfl⟩)
          change ∃ u, (Except.map Prod.snd (setTokens _ _ >>= _)) = Except.ok u
          rw [ran]
          cases err <;> exact ⟨_, rfl⟩
  · rw [if_neg paged]
    exact iff_of_true ⟨s, rfl⟩ fun reached => absurd ⟨reached.1, reached.2.1⟩ paged

theorem filter_read_ok (s : TxStat) : ∃ seq, s.txStatsFilterRead .empty = .ok seq := by
  apply end_list_ok
  intro entry member
  obtain ⟨n, _, same⟩ := List.mem_map.mp member
  have small := pid_short n
  rw [← same]
  exact ⟨small.1, by omega⟩

/-- Only a filter write can leave the bitmap. -/
theorem step_ok_iff (s : TxStat) (op : TxOp) : (∃ t, s.step op = .ok t) ↔ op.InBounds := by
  cases op with
  | writeEnable ubuf =>
      apply iff_of_true _ trivial
      unfold step
      dsimp only
      rw [enable_write_state]
      cases enableValue ubuf with
      | none => exact ⟨s, rfl⟩
      | some value => exact ⟨_, s.enable_write_eq value⟩
  | readEnable => exact iff_of_true ⟨s, rfl⟩ trivial
  | writeFilter page dup ubuf => exact s.write_filter_ok_iff page dup ubuf
  | readFilter =>
      apply iff_of_true _ trivial
      obtain ⟨seq, read⟩ := s.filter_read_ok
      unfold step
      dsimp only
      rw [read]
      exact ⟨s, rfl⟩
  | writeOutput => exact iff_of_true ⟨s, rfl⟩ trivial
  | readOutput =>
      apply iff_of_true _ trivial
      obtain ⟨seq, _, read⟩ := s.output_read_ok
      unfold step
      dsimp only
      rw [read]
      exact ⟨_, rfl⟩
  | send probe current size => exact iff_of_true ⟨_, rfl⟩ trivial

end TxStat

end WPerf.Module
