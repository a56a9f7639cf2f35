import Mathlib.Data.Finset.Sort
import WPerf.Module.TxCounts

/-!
# What the pid filter reads back

Accepted filter writes add up to a set of any size, and a read prints it into
one page. A pid that does not fit marks the buffer full and all later ones are
skipped; the last comma that did fit becomes the newline.
-/

namespace WPerf.Module

open WPerf.Library

set_option autoImplicit false

namespace TraceSeq

theorem printf_all_fits (texts : List (List Char)) (seq : TraceSeq) (empty : seq.full = false)
    (room : seq.buffer.length + texts.flatten.length < pageSize - 1) :
    texts.foldl printf seq = ⟨seq.buffer ++ texts.flatten, false⟩ := by
  induction texts generalizing seq with
  | nil =>
      rw [List.flatten_nil, List.append_nil, ← empty]
      rfl
  | cons text rest ih =>
      rw [List.flatten_cons, List.length_append] at room
      have printed : seq.printf text = ⟨seq.buffer ++ text, false⟩ := by
        unfold printf
        rw [if_neg (by rw [empty]; decide), if_neg (by omega), empty]
      rw [List.foldl_cons, printed, ih ⟨seq.buffer ++ text, false⟩ rfl
        (by rw [List.length_append]; omega)]
      rw [List.flatten_cons, List.append_assoc]

theorem printf_all_below (texts : List (List Char)) (seq : TraceSeq)
    (below : seq.buffer.length < pageSize - 1) :
    (texts.foldl printf seq).buffer.length < pageSize - 1 := by
  induction texts generalizing seq with
  | nil => exact below
  | cons text rest ih =>
      apply ih
      unfold printf
      split_ifs with full long
      · exact below
      · exact below
      · rw [List.length_append]
        omega

end TraceSeq

def listText (entries : List (List Char)) : List Char :=
  if entries = [] then "none\n".toList else [','].intercalate entries ++ ['\n']

theorem flatten_commas (entries : List (List Char)) (nonempty : entries ≠ []) :
    (entries.map (· ++ [','])).flatten = [','].intercalate entries ++ [','] := by
  induction entries with
  | nil => exact absurd rfl nonempty
  | cons entry rest ih =>
      cases rest with
      | nil => simp
      | cons next rest =>
          rw [List.map_cons, List.flatten_cons, ih (List.cons_ne_nil next rest),
            List.intercalate_cons_cons]
          simp

namespace TxStat

/-- A list of short entries is printed whole exactly when it fits below the
limit of the buffer. -/
theorem end_list_text_iff (entries : List (List Char))
    (short : ∀ entry ∈ entries, entry ≠ [] ∧ entry.length < 100) :
    ∃ seq, endList entries .empty = .ok seq ∧
      (seq.buffer = listText entries ↔
        (entries.map fun entry => entry.length + 1).sum < pageSize - 1) := by
  obtain ⟨seq, ended⟩ := end_list_ok entries short
  refine ⟨seq, ended, ?_⟩
  unfold endList at ended
  unfold listText
  by_cases none : entries = []
  · rw [if_pos none] at ended ⊢
    rw [none] at ended ⊢
    rw [← Except.ok.inj ended]
    exact iff_of_true rfl (by decide)
  · rw [if_neg none] at ended ⊢
    have texts : entries.foldl (fun seq entry => seq.printf (entry ++ [','])) TraceSeq.empty =
        (entries.map (· ++ [','])).foldl TraceSeq.printf TraceSeq.empty :=
      List.foldl_map.symm
    have size : (entries.map fun entry => entry.length + 1).sum =
        (entries.map (· ++ [','])).flatten.length := by
      rw [List.length_flatten, List.map_map]
      simp [Function.comp_def]
    have whole : (entries.map (· ++ [','])).flatten.length =
        ([','].intercalate entries ++ ['\n']).length := by
      rw [flatten_commas entries none, List.length_append, List.length_append]
      rfl
    rw [texts] at ended
    unfold TraceSeq.nl at ended
    split_ifs at ended with low
    rw [← Except.ok.inj ended, size]
    constructor
    · intro same
      have below := TraceSeq.printf_all_below (entries.map (· ++ [','])) .empty (by decide)
      have lengths := congrArg List.length same
      rw [List.length_append, List.length_dropLast, List.length_singleton] at lengths
      omega
    · intro fits
      rw [TraceSeq.printf_all_fits _ .empty rfl (by rwa [show TraceSeq.empty.buffer.length = 0
        from rfl, Nat.zero_add])]
      change ([] ++ _ : List Char).dropLast ++ _ = _
      rw [List.nil_append, flatten_commas entries none, List.dropLast_concat]

end TxStat

/-- A filter write that is accepted and names pids, or an operation that does
not clear the filter. -/
def TxOp.Adds : TxOp → Prop
  | .writeFilter page dup ubuf => TxOp.Accepted (.writeFilter page dup ubuf)
  | .writeEnable ubuf => enableValue ubuf ≠ some false
  | _ => True

def TxOp.written : TxOp → List Nat
  | .writeFilter _ _ ubuf => (filterTokens (cString ubuf)).filterMap fun token =>
      (kstrtoul token).toOption.map UInt64.toNat
  | _ => []

def pidsWritten (ops : List TxOp) : List Nat := (ops.flatMap TxOp.written).toFinset.sort

def pidTexts (pids : List Nat) : List (List Char) := pids.map fun n : Nat => Text.decimal n

theorem TxOp.Adds.accepted {op : TxOp} (adds : op.Adds) : op.Accepted := by
  cases op with
  | writeFilter page dup ubuf => exact adds
  | writeEnable ubuf => trivial
  | readEnable => trivial
  | readFilter => trivial
  | writeOutput => trivial
  | readOutput => trivial
  | send probe current size => trivial

theorem pid_token (token : List Char) (pid : isPid token = true) :
    ∃ n, (kstrtoul token).toOption.map UInt64.toNat = some n ∧ n < pidMaxLimit ∧
      wellFormed token = true ∧ ∀ p : Pid, namesPid p token = true ↔ p.val = n := by
  unfold isPid at pid
  unfold wellFormed namesPid
  cases number : kstrtoul token with
  | error errno =>
      rw [number] at pid
      cases pid
  | ok value =>
      rw [number] at pid
      have small : value.toNat < pidMaxLimit := of_decide_eq_true pid
      have narrow : value.toUInt32.toNat = value.toNat := by
        rw [UInt64.toNat_toUInt32]
        exact Nat.mod_eq_of_lt (small.trans (by decide))
      refine ⟨value.toNat, rfl, small, rfl, fun p => ?_⟩
      dsimp only
      rw [narrow, beq_iff_eq]

theorem written_in_range {op : TxOp} (adds : op.Adds) : ∀ n ∈ op.written, n < pidMaxLimit := by
  intro n member
  cases op with
  | writeFilter page dup ubuf =>
      obtain ⟨token, inText, number⟩ := List.mem_filterMap.mp member
      obtain ⟨m, same, small, _⟩ := pid_token token (List.all_eq_true.mp adds.2 token inText)
      rw [same] at number
      rw [← Option.some.inj number]
      exact small
  | writeEnable ubuf => exact absurd member List.not_mem_nil
  | readEnable => exact absurd member List.not_mem_nil
  | readFilter => exact absurd member List.not_mem_nil
  | writeOutput => exact absurd member List.not_mem_nil
  | readOutput => exact absurd member List.not_mem_nil
  | send probe current size => exact absurd member List.not_mem_nil

namespace TxStat

theorem moved_adds (s : TxStat) (op : TxOp) (adds : op.Adds) (p : Pid) :
    (s.moved op).filter p = true ↔ s.filter p = true ∨ p.val ∈ op.written := by
  have kept : ∀ t : TxStat, t.filter = s.filter →
      (t.filter p = true ↔ s.filter p = true ∨ p.val ∈ ([] : List Nat)) := by
    intro t same
    rw [same]
    simp
  cases op with
  | writeFilter page dup ubuf =>
      have pids := List.all_eq_true.mp adds.2
      have fit : (filterTokens (cString ubuf)).all wellFormed = true := by
        apply List.all_eq_true.mpr
        intro token member
        obtain ⟨_, _, _, formed, _⟩ := pid_token token (pids token member)
        exact formed
      unfold moved
      dsimp only
      rw [if_pos adds.1]
      unfold refiltered TxOp.written
      rw [if_pos fit]
      dsimp only
      rw [Bool.or_eq_true, List.any_eq_true, List.mem_filterMap]
      apply or_congr_right
      apply exists_congr
      intro token
      apply and_congr_right
      intro member
      obtain ⟨n, number, _, _, names⟩ := pid_token token (pids token member)
      rw [names p, number, Option.some.injEq]
      exact eq_comm
  | writeEnable ubuf =>
      unfold moved
      dsimp only
      cases value : enableValue ubuf with
      | none => exact kept s rfl
      | some enabled =>
          have on : enabled = true := by
            cases enabled with
            | true => rfl
            | false => exact absurd value adds
          rw [on]
          exact kept _ rfl
  | readEnable => exact kept s rfl
  | readFilter => exact kept s rfl
  | writeOutput => exact kept s rfl
  | readOutput => exact kept _ rfl
  | send probe current size => exact kept _ rfl

theorem run_adds (s final : TxStat) (ops : List TxOp) (added : ∀ op ∈ ops, op.Adds)
    (ran : Runs.run step s ops = .ok final) (p : Pid) :
    final.filter p = true ↔ s.filter p = true ∨ p.val ∈ ops.flatMap TxOp.written := by
  induction ops generalizing s with
  | nil =>
      rw [← Except.ok.inj ran]
      simp
  | cons op rest ih =>
      obtain ⟨next, first, remaining⟩ := (Runs.run_cons_iff s final op rest).mp ran
      rw [List.forall_mem_cons] at added
      rw [ih next added.2 remaining, s.step_moved next op first, s.moved_adds op added.1,
        List.flatMap_cons, List.mem_append, or_assoc]

/-- From a clear filter, a run that adds pids does not fail and leaves exactly
the pids written. -/
theorem run_from_clear (s : TxStat) (cleared : s.filter = fun _ => false) (ops : List TxOp)
    (added : ∀ op ∈ ops, op.Adds) :
    ∃ final, Runs.run step s ops = .ok final ∧ final.setBits.map Fin.val = pidsWritten ops := by
  obtain ⟨final, ran⟩ := (Runs.run_ok_iff TxOp.InBounds
    (fun s op (_ : True) => s.step_ok_iff op) (fun _ _ _ _ _ => trivial) s trivial ops).mpr
    fun op member => (added op member).accepted.inBounds
  refine ⟨final, ran, ?_⟩
  have ordered : (final.setBits.map Fin.val).Pairwise fun m n => m < n :=
    List.pairwise_map.mpr final.set_bits_ordered
  have once : (final.setBits.map Fin.val).Nodup := ordered.imp Nat.ne_of_lt
  have members : (ops.flatMap TxOp.written).toFinset = (final.setBits.map Fin.val).toFinset := by
    ext n
    rw [List.mem_toFinset, List.mem_toFinset, List.mem_map]
    constructor
    · intro member
      obtain ⟨op, inOps, written⟩ := List.mem_flatMap.mp member
      have small := written_in_range (added op inOps) n written
      refine ⟨⟨n, small⟩, List.mem_filter.mpr ⟨List.mem_finRange _, ?_⟩, rfl⟩
      exact (run_adds s final ops added ran ⟨n, small⟩).mpr (Or.inr member)
    · rintro ⟨p, set, rfl⟩
      have held := (run_adds s final ops added ran p).mp (List.mem_filter.mp set).2
      rw [cleared] at held
      exact held.resolve_left Bool.false_ne_true
  unfold pidsWritten
  rw [members]
  exact ((List.toFinset_sort (· ≤ ·) once).mpr (ordered.imp Nat.le_of_lt)).symm

theorem filter_read_text_iff (s : TxStat) :
    ∃ seq, s.txStatsFilterRead .empty = .ok seq ∧
      (seq.buffer = listText (pidTexts (s.setBits.map Fin.val)) ↔
        ((pidTexts (s.setBits.map Fin.val)).map fun text => text.length + 1).sum <
          pageSize - 1) := by
  have texts : pidTexts (s.setBits.map Fin.val) = s.setBits.map fun n => Text.decimal n.val :=
    List.map_map
  rw [texts]
  apply end_list_text_iff
  intro entry member
  obtain ⟨n, _, same⟩ := List.mem_map.mp member
  have small := pid_short n
  rw [← same]
  exact ⟨small.1, by omega⟩

/-- Accepted writes of pids to a clear filter, with any operations between them
that do not clear it: the filter reads back as the union of the pids exactly
when the text fits in the page. -/
theorem pid_filter_reads_back_iff (s : TxStat) (cleared : s.filter = fun _ => false)
    (ops : List TxOp) (added : ∀ op ∈ ops, op.Adds) :
    ∃ final seq, Runs.run step s ops = .ok final ∧ final.txStatsFilterRead .empty = .ok seq ∧
      (seq.buffer = listText (pidTexts (pidsWritten ops)) ↔
        ((pidTexts (pidsWritten ops)).map fun text => text.length + 1).sum < pageSize - 1) := by
  obtain ⟨final, ran, bits⟩ := s.run_from_clear cleared ops added
  obtain ⟨seq, read, whole⟩ := final.filter_read_text_iff
  rw [bits] at whole
  exact ⟨final, seq, ran, read, whole⟩

theorem two_writes_read_back :
    (init.filter = fun _ => false) ∧
      (∀ op ∈ [watchSeven, .writeFilter true true "42,7".toList], op.Adds) ∧
      ∃ final seq, Runs.run step init [watchSeven, .writeFilter true true "42,7".toList] =
          .ok final ∧
        final.txStatsFilterRead .empty = .ok seq ∧
        (seq.buffer =
            listText (pidTexts (pidsWritten [watchSeven, .writeFilter true true "42,7".toList])) ↔
          ((pidTexts (pidsWritten [watchSeven, .writeFilter true true "42,7".toList])).map
            fun text => text.length + 1).sum < pageSize - 1) := by
  have added : ∀ op ∈ [watchSeven, .writeFilter true true "42,7".toList], op.Adds := by
    rw [List.forall_mem_cons, List.forall_mem_singleton]
    exact ⟨⟨by decide, by decide⟩, ⟨by decide, by decide⟩⟩
  exact ⟨rfl, added, pid_filter_reads_back_iff init rfl _ added⟩

def writePid (n : Nat) : TxOp := .writeFilter true true (Text.decimal n)

theorem decimal_digits (n : Nat) : ∀ c ∈ Text.decimal n, c.isDigit = true := by
  unfold Text.decimal
  rw [if_neg (by omega), Int.natAbs_natCast]
  exact Text.digits_are_digits n

theorem kstrtoul_decimal (n : Nat) (small : n < UInt64.size) :
    kstrtoul (Text.decimal n) = .ok (.ofNat n) := by
  have digits := decimal_digits n
  have value : Text.natOf (Text.decimal n) = some n := by
    rw [Text.natOf_decimal, if_neg (by omega), Int.toNat_natCast]
  have unsigned : (Text.decimal n).head? ≠ some '+' := by
    intro sign
    exact absurd (digits '+' (List.mem_of_head? sign)) (by decide)
  unfold kstrtoul
  rw [if_neg unsigned]
  dsimp only
  rw [List.takeWhile_eq_self_iff.mpr digits, value]
  dsimp only
  rw [if_pos small, if_pos (Or.inl (List.dropWhile_eq_nil_iff.mpr digits))]

theorem tokens_decimal (n : Nat) :
    filterTokens (cString (Text.decimal n)) = [Text.decimal n] := by
  have digits := decimal_digits n
  have absent : ∀ c : Char, c.isDigit = false → c ∉ Text.decimal n := by
    intro c other member
    rw [digits c member] at other
    cases other
  have solid : ∀ c ∈ Text.decimal n, ¬isspace c = true := by
    intro c member
    have range : 48 ≤ c.toNat ∧ c.toNat ≤ 57 := Char.isDigit_iff_toNat.mp (digits c member)
    have space : c ≠ ' ' := fun same => absurd (same ▸ member) (absent ' ' (by decide))
    have hard : c ≠ '\u00a0' := fun same => absurd (same ▸ member) (absent '\u00a0' (by decide))
    unfold isspace
    simp [space, hard]
    omega
  have whole : cString (Text.decimal n) = Text.decimal n :=
    List.takeWhile_eq_self_iff.mpr fun c member =>
      decide_eq_true fun same => absent '\x00' (by decide) (same ▸ member)
  have stripped : strstrip (Text.decimal n) = Text.decimal n := by
    unfold strstrip
    rw [List.dropWhile_eq_self_iff.mpr fun long => solid _ (List.getElem_mem long),
      List.rdropWhile_eq_self_iff.mpr fun some => solid _ (List.getLast_mem some)]
  have split : (Text.decimal n).splitOn ',' = [Text.decimal n] :=
    List.splitOn_eq_singleton (absent ',' (by decide))
  unfold filterTokens strsep
  rw [whole, stripped, split, List.filter_cons_of_pos (by simpa using Text.decimal_ne_nil n),
    List.filter_nil]

theorem write_pid_adds (n : Nat) (small : n < pidMaxLimit) :
    (writePid n).Adds ∧ n ∈ (writePid n).written := by
  have fits : n < UInt64.size := small.trans (by decide)
  have short := pid_short ⟨n, small⟩
  have tokens := tokens_decimal n
  have value : (UInt64.ofNat n).toNat = n := UInt64.toNat_ofNat_of_lt fits
  refine ⟨⟨⟨?_, rfl, rfl⟩, ?_⟩, ?_⟩
  · change (Text.decimal n).length < 4096
    have length : (Text.decimal n).length ≤ 21 := short.2
    omega
  · unfold isPid
    rw [tokens, List.all_cons, List.all_nil, kstrtoul_decimal n fits, Bool.and_true]
    dsimp only
    rw [value]
    exact decide_eq_true small
  · apply List.mem_filterMap.mpr
    refine ⟨Text.decimal n, ?_, ?_⟩
    · rw [tokens]
      exact List.mem_singleton_self _
    · rw [kstrtoul_decimal n fits]
      exact congrArg some value

def writePids (count : Nat) : List TxOp := (List.range count).map writePid

theorem write_pids_adds (count : Nat) (small : count ≤ pidMaxLimit) :
    ∀ op ∈ writePids count, op.Adds := by
  unfold writePids
  rw [List.forall_mem_map]
  intro n member
  exact (write_pid_adds n (Nat.lt_of_lt_of_le (List.mem_range.mp member) small)).1

theorem write_pids_length (count : Nat) (small : count ≤ pidMaxLimit) :
    count ≤ (pidsWritten (writePids count)).length := by
  unfold pidsWritten
  rw [Finset.length_sort]
  calc
    count = (Finset.range count).card := (Finset.card_range count).symm
    _ ≤ ((writePids count).flatMap TxOp.written).toFinset.card := by
      apply Finset.card_le_card
      intro n member
      have below := Finset.mem_range.mp member
      exact List.mem_toFinset.mpr (List.mem_flatMap.mpr
        ⟨writePid n, List.mem_map_of_mem (List.mem_range.mpr below),
          (write_pid_adds n (Nat.lt_of_lt_of_le below small)).2⟩)

theorem pid_texts_size (pids : List Nat) :
    2 * pids.length ≤ ((pidTexts pids).map fun text => text.length + 1).sum := by
  induction pids with
  | nil => exact Nat.le_refl 0
  | cons n rest ih =>
      have digit := List.length_pos_of_ne_nil (Text.decimal_ne_nil n)
      unfold pidTexts at ih ⊢
      rw [List.map_cons, List.map_cons, List.sum_cons, List.length_cons]
      omega

theorem many_pids_cut :
    (init.filter = fun _ => false) ∧ (∀ op ∈ writePids 2048, op.Adds) ∧
      ∃ final seq, Runs.run step init (writePids 2048) = .ok final ∧
        final.txStatsFilterRead .empty = .ok seq ∧
        seq.buffer ≠ listText (pidTexts (pidsWritten (writePids 2048))) := by
  have small : 2048 ≤ pidMaxLimit := by decide
  have added := write_pids_adds 2048 small
  obtain ⟨final, ran, bits⟩ := init.run_from_clear rfl _ added
  obtain ⟨seq, read, whole⟩ := final.filter_read_text_iff
  rw [bits] at whole
  refine ⟨rfl, added, final, seq, ran, read, ?_⟩
  intro same
  have fits := whole.mp same
  have count := write_pids_length 2048 small
  have size := pid_texts_size (pidsWritten (writePids 2048))
  have page : pageSize = 4096 := rfl
  omega

end TxStat

end WPerf.Module
