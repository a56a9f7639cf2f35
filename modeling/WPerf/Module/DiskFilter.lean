import WPerf.Module.DiskTable

/-!
# What a disk filter write leaves

The filter write copies each name over an old row and keeps the bytes behind
it. A text that is accepted reads back as its own names, whatever the rows
held. A text that is rejected has replaced the device list up to the name that
is too long: the index is reset before the first name is looked at.
-/

namespace WPerf.Module

open WPerf.Library

set_option autoImplicit false

theorem TraceSeq.print_list_joined (width : Nat) (entries : List (List Char)) (seq : TraceSeq)
    (nonempty : entries ≠ []) (short : ∀ entry ∈ entries, entry.length < width)
    (empty : seq.full = false)
    (room : seq.buffer.length + entries.length * width < pageSize - 1) :
    seq.printList entries =
      ⟨seq.buffer ++ ([','].intercalate entries ++ ['\n']), false⟩ := by
  have printed : ∀ (seq : TraceSeq) (entry : List Char) (c : Char), seq.full = false →
      entry.length < width → seq.buffer.length + width < pageSize - 1 →
      seq.printf (entry ++ [c]) = ⟨seq.buffer ++ (entry ++ [c]), false⟩ := by
    intro seq entry c empty small fits
    unfold TraceSeq.printf
    rw [if_neg (by rw [empty]; decide), if_neg (by simp; omega), empty]
  induction entries generalizing seq with
  | nil => exact absurd rfl nonempty
  | cons entry rest ih =>
      have own := short entry List.mem_cons_self
      rw [List.length_cons, Nat.add_mul, Nat.one_mul] at room
      cases rest with
      | nil =>
          rw [List.intercalate_singleton]
          exact printed seq entry '\n' empty own (by omega)
      | cons next others =>
          rw [List.length_cons, Nat.add_mul, Nat.one_mul] at room
          have first := printed seq entry ',' empty own (by omega)
          unfold TraceSeq.printList
          rw [first, ih _ (List.cons_ne_nil next others)
            (fun other member => short other (List.mem_cons_of_mem entry member)) rfl (by
              rw [List.length_cons, Nat.add_mul, Nat.one_mul]
              simp only [List.length_append, List.length_singleton]
              omega)]
          rw [List.intercalate_cons_cons]
          simp

theorem strncpy_row_ended (row : Row) (token : List Char) (fits : token.length + 1 ≤ maxDnameSize) :
    '\x00' ∈ (strncpyRow row token).toList := by
  rw [strncpy_row_list row token fits]
  exact List.mem_append_right token List.mem_cons_self

theorem strncpy_row_same (row : Row) (token : List Char) (fits : token.length + 1 ≤ maxDnameSize)
    (same : cString row.toList = token) : strncpyRow row token = row := by
  have parts : token ++ row.toList.dropWhile (· ≠ '\x00') = row.toList := by
    rw [← same]
    exact List.takeWhile_append_dropWhile
  have size : row.toList.length = maxDnameSize := Vector.length_toList
  apply Vector.toList_inj.mp
  rw [strncpy_row_list row token fits]
  cases rest : row.toList.dropWhile (· ≠ '\x00') with
  | nil =>
      rw [rest, List.append_nil] at parts
      rw [← parts] at size
      omega
  | cons first behind =>
      have nul : first = '\x00' := by
        have head := List.head?_dropWhile_not (fun c => decide (c ≠ '\x00')) row.toList
        rw [rest] at head
        simpa using head
      rw [rest, nul] at parts
      rw [← parts, List.drop_append, List.drop_of_length_le (by omega), List.nil_append]
      simp

namespace DiskUtils

theorem store_tokens_rows (tokens : List (List Char)) (s t : DiskUtils) (err : Except Errno Unit)
    (ran : storeTokens tokens s = .ok (err, t)) (i : Nat) (row : Row)
    (found : s.dnames[i]? = some row) :
    t.dnames[i]? = some (if s.didx ≤ i then
      ((tokens.filter (· ≠ [])).takeWhile fitsRow)[i - s.didx]?.elim row (strncpyRow row)
      else row) := by
  induction tokens generalizing s row with
  | nil =>
      rw [← (Prod.mk.inj (Except.ok.inj ran)).2, found]
      simp
  | cons token rest ih =>
      unfold storeTokens at ran
      by_cases empty : token = []
      · rw [if_pos empty] at ran
        rw [List.filter_cons_of_neg (by simpa using empty)]
        exact ih s ran row found
      · rw [if_neg empty] at ran
        rw [List.filter_cons_of_pos (by simpa using empty)]
        by_cases fits : token.length + 1 ≤ maxDnameSize
        · have own : fitsRow token = true := decide_eq_true fits
          rw [if_neg (Nat.not_lt.mpr fits)] at ran
          rw [List.takeWhile_cons_of_pos own]
          obtain ⟨middle, stored, remaining⟩ := (Fallible.bind_eq_ok_iff _ _ _).mp ran
          unfold storeName at stored
          split_ifs at stored with room
          have didx : middle.didx = s.didx + 1 := by
            rw [← Except.ok.inj stored]
          have next : middle.dnames[i]? =
              some (if i = s.didx then strncpyRow row token else row) := by
            rw [← Except.ok.inj stored]
            dsimp only
            rw [Vector.getElem?_set]
            by_cases here : i = s.didx
            · subst here
              rw [Vector.getElem?_eq_getElem room] at found
              rw [if_pos rfl, if_pos rfl, Option.some.inj found]
            · rw [if_neg fun same => here same.symm, if_neg here, found]
          rw [ih middle remaining _ next, didx]
          rcases Nat.lt_trichotomy i s.didx with before | here | after
          · rw [if_neg (by omega), if_neg (by omega), if_neg (by omega)]
          · rw [if_neg (by omega), if_pos here, if_pos (by omega), here, Nat.sub_self]
            rfl
          · have step : i - s.didx = i - (s.didx + 1) + 1 := by omega
            rw [if_pos (by omega), if_neg (by omega), if_pos (by omega), step,
              List.getElem?_cons_succ]
        · have own : ¬fitsRow token = true := by
            unfold fitsRow
            simpa using fits
          rw [if_pos (Nat.lt_of_not_le fits)] at ran
          rw [List.takeWhile_cons_of_neg own, ← (Prod.mk.inj (Except.ok.inj ran)).2, found]
          simp

theorem filter_write_rows (s t : DiskUtils) (data : List Char) (err : Except Errno Unit)
    (ran : s.dutilsFilterWrite true data = .ok (err, t)) (i : Nat) (row : Row)
    (found : s.dnames[i]? = some row) :
    t.dnames[i]? = some ((storedTokens data)[i]?.elim row (strncpyRow row)) := by
  change (storeTokens (strsep (strstrip data)) { s with didx := 0, armed := false } >>= _) = _ at ran
  obtain ⟨⟨verdict, middle⟩, loop, done⟩ := (Fallible.bind_eq_ok_iff _ _ _).mp ran
  have rows := store_tokens_rows _ _ middle verdict loop i row found
  rw [if_pos (Nat.zero_le i), Nat.sub_zero] at rows
  have same : t.dnames = middle.dnames := by
    cases verdict with
    | error errno => rw [← (Prod.mk.inj (Except.ok.inj done)).2]
    | ok accepted =>
        rw [← (Prod.mk.inj (Except.ok.inj done)).2]
        split_ifs <;> rfl
  rw [same]
  exact rows

/-- A filter write that returns has stored its tokens and can be read back. -/
theorem filter_write_readable (s t : DiskUtils) (data : List Char) (err : Except Errno Unit)
    (ran : s.dutilsFilterWrite true data = .ok (err, t)) : s.Refiltered data t ∧ t.Readable := by
  have spec := s.filter_write_spec data
  by_cases few : (storedTokens data).length ≤ maxDiskNum
  · rw [if_pos few] at spec
    obtain ⟨u, same, refiltered⟩ := spec
    rw [ran] at same
    rw [← (Prod.mk.inj (Except.ok.inj same)).2] at refiltered
    refine ⟨refiltered, ?_, ?_⟩
    · rw [refiltered.didx]
      exact few
    · intro i bound used
      rw [refiltered.didx] at used
      have rows := s.filter_write_rows t data err ran i _ (Vector.getElem?_eq_getElem bound)
      have own : fitsRow (storedTokens data)[i] = true :=
        List.mem_takeWhile_imp (List.getElem_mem used)
      rw [Vector.getElem?_eq_getElem bound, List.getElem?_eq_getElem used] at rows
      rw [Option.some.inj rows]
      exact strncpy_row_ended _ _ (of_decide_eq_true own)
  · rw [if_neg few, ran] at spec
    cases spec

/-- The same devices are configured, byte for byte, with the same counters. -/
structure SameDevices (s t : DiskUtils) : Prop where
  didx : t.didx = s.didx
  rows : t.dnames.toList.take s.didx = s.dnames.toList.take s.didx
  counters : ∀ i < s.didx, t.util i = s.util i

theorem SameDevices.names {s t : DiskUtils} (same : s.SameDevices t) : t.names = s.names := by
  unfold DiskUtils.names
  rw [same.didx, same.rows]

/-- A filter write that returns an error has kept the devices exactly when it
found no memory, or when the names before the first one that is too long are
the devices that were configured already. -/
theorem rejected_filter_keeps_devices_iff (s t : DiskUtils) (dup : Bool) (ubuf : List Char)
    (errno : Errno)
    (returned : s.dutilsFilterWrite dup (cString ubuf) = .ok (.error errno, t)) :
    s.SameDevices t ↔ dup = false ∨
      (storedTokens (cString ubuf) = s.names ∧ (storedTokens (cString ubuf)).length = s.didx) := by
  cases dup with
  | false =>
      have same : s = t := (Prod.mk.inj (Except.ok.inj returned)).2
      rw [← same]
      exact iff_of_true ⟨rfl, rfl, fun _ _ => rfl⟩ (Or.inl rfl)
  | true =>
      obtain ⟨refiltered, readable⟩ := s.filter_write_readable t _ _ returned
      have noNul : '\x00' ∉ cString ubuf := by
        intro member
        have solid := List.mem_takeWhile_imp member
        exact absurd solid (by decide)
      have names := refiltered.names noNul
      rw [or_iff_right (by decide)]
      constructor
      · intro same
        refine ⟨?_, ?_⟩
        · rw [← names, same.names]
        · rw [← refiltered.didx, same.didx]
      · rintro ⟨stored, count⟩
        have didx : t.didx = s.didx := refiltered.didx.trans count
        have bounded : s.didx ≤ maxDiskNum := by
          rw [← didx]
          exact readable.inTable
        refine ⟨didx, ?_, ?_⟩
        · apply List.ext_getElem?
          intro i
          by_cases used : i < s.didx
          · have bound : i < maxDiskNum := Nat.lt_of_lt_of_le used bounded
            have rows := s.filter_write_rows t _ _ returned i _ (Vector.getElem?_eq_getElem bound)
            have here : i < (storedTokens (cString ubuf)).length := by
              rw [count]
              exact used
            have own : fitsRow (storedTokens (cString ubuf))[i] = true :=
              List.mem_takeWhile_imp (List.getElem_mem here)
            have name : cString s.dnames[i].toList = (storedTokens (cString ubuf))[i] := by
              rw [← s.name_eq i used bound]
              unfold DiskUtils.name
              rw [← stored, List.getD_eq_getElem?_getD, List.getElem?_eq_getElem here,
                Option.getD_some]
            rw [List.getElem?_eq_getElem here] at rows
            rw [List.getElem?_take_of_lt used, List.getElem?_take_of_lt used,
              Vector.getElem?_toList, Vector.getElem?_toList, rows,
              Vector.getElem?_eq_getElem bound]
            exact congrArg some (strncpy_row_same _ _ (of_decide_eq_true own) name)
          · rw [List.getElem?_take_eq_none (Nat.not_lt.mp used),
              List.getElem?_take_eq_none (Nat.not_lt.mp used)]
        · intro i _
          unfold DiskUtils.util
          rw [refiltered.dutils]

def oneDisk : DiskUtils :=
  { init with
    dnames := init.dnames.set 0 (strncpyRow (Vector.replicate maxDnameSize '\x00') "sda".toList)
    didx := 1 }

def longName (first : List Char) : List Char := first ++ ',' :: List.replicate 20 'x'

theorem one_disk_names : oneDisk.names = ["sda".toList] := by
  have row : oneDisk.dnames.toList.take 1 =
      [strncpyRow (Vector.replicate maxDnameSize '\x00') "sda".toList] := rfl
  change (oneDisk.dnames.toList.take 1).map (fun row => cString row.toList) = _
  rw [row, List.map_singleton, strncpy_row_text _ _ (by decide) (by decide)]

theorem long_name_rejected (s : DiskUtils) (first : List Char)
    (stored : storedTokens (cString (longName first)) = [first])
    (long : (filterTokens (cString (longName first))).all fitsRow = false) :
    ∃ t, s.dutilsFilterWrite true (cString (longName first)) = .ok (.error .einval, t) ∧
      s.Refiltered (cString (longName first)) t := by
  have spec := s.filter_write_spec (cString (longName first))
  rw [stored, if_pos (by rw [List.length_singleton]; decide), long,
    if_neg Bool.false_ne_true] at spec
  exact spec

theorem same_disk_kept :
    ∃ t, oneDisk.dutilsFilterWrite true (cString (longName "sda".toList)) =
        .ok (.error .einval, t) ∧
      (oneDisk.SameDevices t ↔ true = false ∨
        (storedTokens (cString (longName "sda".toList)) = oneDisk.names ∧
          (storedTokens (cString (longName "sda".toList))).length = oneDisk.didx)) := by
  obtain ⟨t, returned, _⟩ := oneDisk.long_name_rejected "sda".toList (by decide) (by decide)
  exact ⟨t, returned, rejected_filter_keeps_devices_iff oneDisk t true _ .einval returned⟩

theorem rejected_filter_replaces_disk :
    ∃ t, oneDisk.dutilsFilterWrite true (cString (longName "sdb".toList)) =
        .ok (.error .einval, t) ∧
      oneDisk.names = ["sda".toList] ∧ t.names = ["sdb".toList] ∧ ¬oneDisk.SameDevices t := by
  obtain ⟨t, returned, refiltered⟩ :=
    oneDisk.long_name_rejected "sdb".toList (by decide) (by decide)
  have names : t.names = ["sdb".toList] := refiltered.names (by decide)
  refine ⟨t, returned, one_disk_names, names, ?_⟩
  intro same
  have kept := same.names
  rw [names, one_disk_names] at kept
  exact absurd kept (by decide)

/-- An accepted text of few short names, written over any table: it reads back
joined, and `dev_idx` finds exactly its names. -/
theorem filter_reads_back (s : DiskUtils) (data : List Char) (noNul : '\x00' ∉ data)
    (few : (filterTokens data).length ≤ maxDiskNum)
    (short : ∀ token ∈ filterTokens data, token.length < maxDnameSize) :
    ∃ t seq, s.dutilsFilterWrite true data = .ok (.ok (), t) ∧
      t.dutilsFilterRead .empty = .ok seq ∧
      seq.buffer = (if filterTokens data = [] then "none\n".toList
        else [','].intercalate (filterTokens data) ++ ['\n']) ∧
      ∀ dname : List Char, t.devIdx dname =
        .ok ((filterTokens data).findIdx? fun token => token = cString dname) := by
  have fit : (filterTokens data).all fitsRow = true :=
    List.all_eq_true.mpr fun token member => decide_eq_true (short token member)
  have all : storedTokens data = filterTokens data :=
    List.takeWhile_eq_self_iff.mpr (List.all_eq_true.mp fit)
  have spec := s.filter_write_spec data
  rw [all, if_pos few, if_pos fit] at spec
  obtain ⟨t, ran, _⟩ := spec
  obtain ⟨refiltered, readable⟩ := s.filter_write_readable t data _ ran
  have names : t.names = filterTokens data := (refiltered.names noNul).trans all
  have didx : t.didx = (filterTokens data).length := by
    rw [refiltered.didx, all]
  refine ⟨t, _, ran, t.filter_read_ok readable .empty, ?_, ?_⟩
  · rw [didx, names]
    by_cases none : filterTokens data = []
    · rw [none]
      rfl
    · rw [if_neg none, if_neg fun zero => none (List.length_eq_zero_iff.mp zero),
        TraceSeq.print_list_joined maxDnameSize _ _ none short rfl ?_]
      · rfl
      · have most := Nat.mul_le_mul_right maxDnameSize few
        exact Nat.lt_of_le_of_lt (Nat.add_le_add_left most _) (by decide)
  · intro dname
    rw [t.dev_idx_ok readable, names]

theorem two_disks_read_back :
    ∃ t seq, oneDisk.dutilsFilterWrite true " sdb,,nvme0n1\n".toList = .ok (.ok (), t) ∧
      t.dutilsFilterRead .empty = .ok seq ∧
      seq.buffer = (if filterTokens " sdb,,nvme0n1\n".toList = [] then "none\n".toList
        else [','].intercalate (filterTokens " sdb,,nvme0n1\n".toList) ++ ['\n']) ∧
      ∀ dname : List Char, t.devIdx dname = .ok
        ((filterTokens " sdb,,nvme0n1\n".toList).findIdx? fun token => token = cString dname) :=
  filter_reads_back oneDisk " sdb,,nvme0n1\n".toList (by decide) (by decide) (by decide)

end DiskUtils

end WPerf.Module
