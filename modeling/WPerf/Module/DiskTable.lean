import WPerf.Library.Runs
import WPerf.Module.DiskUtils

/-!
# The disk table stays in bounds

One lemma for each operation says what it does to a sound table: the index is
within the table and every row ends inside it. Only the filter write can leave
the table, and does so exactly when its text has more than `MAX_DISK_NUM`
tokens before one that is too long.
-/

namespace WPerf.Module

open WPerf.Library

set_option autoImplicit false

def fitsRow (token : List Char) : Bool := decide (token.length + 1 ≤ maxDnameSize)

/-- The tokens that are stored: those before the first one that is too long. -/
def storedTokens (data : List Char) : List (List Char) := (filterTokens data).takeWhile fitsRow

theorem strncpy_row_list (row : Row) (token : List Char) (fits : token.length + 1 ≤ maxDnameSize) :
    (strncpyRow row token).toList =
      token ++ '\x00' :: row.toList.drop (token.length + 1) := by
  apply List.ext_getElem?
  intro i
  unfold strncpyRow
  rw [Vector.getElem?_toList, Vector.getElem?_ofFn, List.getElem?_append]
  dsimp only
  by_cases copied : i < token.length
  · rw [if_pos copied, dif_pos (by omega), if_pos (by omega)]
    rw [List.getD_eq_getElem?_getD, List.getElem?_append_left copied,
      List.getElem?_eq_getElem copied]
    rfl
  · rw [if_neg copied]
    by_cases last : i = token.length
    · rw [dif_pos (by omega), if_pos (by omega)]
      simp [last]
    · have past : i - token.length = (i - (token.length + 1)) + 1 := by omega
      have whole : token.length + 1 + (i - (token.length + 1)) = i := by omega
      rw [past, List.getElem?_cons_succ, List.getElem?_drop, whole, Vector.getElem?_toList]
      by_cases inside : i < maxDnameSize
      · rw [dif_pos inside, if_neg (by omega), Vector.getElem?_eq_getElem inside]
        rfl
      · rw [dif_neg inside, Vector.getElem?_eq_none (by omega)]

theorem strncpy_row_text (row : Row) (token : List Char) (fits : token.length + 1 ≤ maxDnameSize)
    (noNul : '\x00' ∉ token) : cString (strncpyRow row token).toList = token := by
  have solid : ∀ c ∈ token, decide (c ≠ '\x00') = true := by
    intro c member
    apply decide_eq_true
    intro nul
    rw [nul] at member
    exact noNul member
  unfold cString
  rw [strncpy_row_list row token fits, List.takeWhile_append_of_pos solid,
    List.takeWhile_cons_of_neg (by decide), List.append_nil]

namespace DiskUtils

def names (s : DiskUtils) : List (List Char) :=
  (s.dnames.toList.take s.didx).map fun row => cString row.toList

/-- Every row ends inside itself. -/
def Terminated (s : DiskUtils) : Prop := ∀ row ∈ s.dnames, '\x00' ∈ row.toList

structure Sound (s : DiskUtils) : Prop where
  inTable : s.didx ≤ maxDiskNum
  terminated : s.Terminated

structure Readable (s : DiskUtils) : Prop where
  inTable : s.didx ≤ maxDiskNum
  ended : ∀ (i : Nat) (bound : i < maxDiskNum), i < s.didx → '\x00' ∈ s.dnames[i].toList

theorem Sound.readable {s : DiskUtils} (sound : s.Sound) : s.Readable where
  inTable := sound.inTable
  ended := fun _ bound _ => sound.terminated _ (Vector.getElem_mem bound)

theorem init_sound : init.Sound where
  inTable := Nat.zero_le maxDiskNum
  terminated := by
    intro row member
    rw [(Vector.mem_replicate.mp member).2]
    exact Vector.mem_toList_iff.mpr (Vector.mem_replicate.mpr ⟨by decide, rfl⟩)

/-- The table `t` has the names of `s` followed by the tokens. -/
structure Stores (s : DiskUtils) (tokens : List (List Char)) (t : DiskUtils) : Prop where
  didx : t.didx = s.didx + tokens.length
  dutils : t.dutils = s.dutils
  denabled : t.denabled = s.denabled
  armed : t.armed = s.armed
  terminated : s.Terminated → t.Terminated
  names : (∀ token ∈ tokens, '\x00' ∉ token) → t.names = s.names ++ tokens

theorem stores_nothing (s : DiskUtils) : s.Stores [] s :=
  ⟨rfl, rfl, rfl, rfl, id, fun _ => (List.append_nil s.names).symm⟩

theorem Stores.append {s t u : DiskUtils} {front back : List (List Char)} (first : s.Stores front t)
    (second : t.Stores back u) : s.Stores (front ++ back) u where
  didx := by rw [second.didx, first.didx, List.length_append, Nat.add_assoc]
  dutils := second.dutils.trans first.dutils
  denabled := second.denabled.trans first.denabled
  armed := second.armed.trans first.armed
  terminated := fun before => second.terminated (first.terminated before)
  names := by
    intro solid
    rw [second.names fun token member => solid token (List.mem_append_right front member),
      first.names fun token member => solid token (List.mem_append_left back member),
      List.append_assoc]

theorem store_name_ok (s : DiskUtils) (token : List Char) (room : s.didx < maxDiskNum)
    (fits : token.length + 1 ≤ maxDnameSize) :
    ∃ t, s.storeName token = .ok t ∧ s.Stores [token] t := by
  unfold storeName
  rw [dif_pos room, if_pos fits]
  refine ⟨_, rfl, rfl, rfl, rfl, rfl, ?_, ?_⟩
  · intro terminated row member
    have stored : row ∈ s.dnames.set s.didx (strncpyRow s.dnames[s.didx] token) := member
    rcases Vector.mem_or_eq_of_mem_set stored with old | new
    · exact terminated row old
    · rw [new, strncpy_row_list _ token fits]
      exact List.mem_append_right token List.mem_cons_self
  · intro solid
    unfold names
    dsimp only
    rw [Vector.toList_set, List.take_add_one, List.take_set_of_le (Nat.le_refl s.didx),
      List.map_append]
    congr 1
    have here : (s.dnames.toList.set s.didx (strncpyRow s.dnames[s.didx] token))[s.didx]? =
        some (strncpyRow s.dnames[s.didx] token) := by
      simp [room]
    rw [here]
    exact congrArg (fun text => [text])
      (strncpy_row_text _ token fits (solid token List.mem_cons_self))

/-- What the token loop does: it stores the tokens before the first one that
is too long, and leaves the table if there are too many of these. -/
theorem store_tokens_spec (tokens : List (List Char)) (s : DiskUtils)
    (inTable : s.didx ≤ maxDiskNum) :
    if s.didx + ((tokens.filter (· ≠ [])).takeWhile fitsRow).length ≤ maxDiskNum then
      ∃ t, storeTokens tokens s =
          .ok (if (tokens.filter (· ≠ [])).all fitsRow then .ok () else .error .einval, t) ∧
        s.Stores ((tokens.filter (· ≠ [])).takeWhile fitsRow) t
    else storeTokens tokens s = .error .outOfBounds := by
  induction tokens generalizing s with
  | nil =>
      rw [List.filter_nil, List.takeWhile_nil, if_pos (by simpa using inTable)]
      exact ⟨s, rfl, s.stores_nothing⟩
  | cons token rest ih =>
      unfold storeTokens
      by_cases empty : token = []
      · rw [if_pos empty, List.filter_cons_of_neg (by simpa using empty)]
        exact ih s inTable
      · rw [if_neg empty, List.filter_cons_of_pos (by simpa using empty)]
        by_cases fits : token.length + 1 ≤ maxDnameSize
        · have own : fitsRow token = true := decide_eq_true fits
          rw [if_neg (Nat.not_lt.mpr fits), List.takeWhile_cons_of_pos own, List.length_cons,
            List.all_cons, own, Bool.true_and]
          by_cases room : s.didx < maxDiskNum
          · obtain ⟨t, stored, stores⟩ := s.store_name_ok token room fits
            have next : t.didx = s.didx + 1 := stores.didx
            have later := ih t (by omega)
            rw [next, Nat.add_assoc, Nat.add_comm 1] at later
            rw [stored]
            by_cases inside : s.didx + (((rest.filter (· ≠ [])).takeWhile fitsRow).length + 1) ≤
                maxDiskNum
            · rw [if_pos inside] at later ⊢
              obtain ⟨u, ran, more⟩ := later
              exact ⟨u, ran, stores.append more⟩
            · rw [if_neg inside] at later ⊢
              exact later
          · rw [if_neg (by omega)]
            unfold storeName
            rw [dif_neg room]
            rfl
        · have own : fitsRow token = false := decide_eq_false fits
          rw [if_pos (Nat.lt_of_not_le fits), List.takeWhile_cons_of_neg (by rw [own]; decide),
            if_pos (by simpa using inTable), List.all_cons, own, Bool.false_and]
          exact ⟨s, rfl, s.stores_nothing⟩

section Loads

variable (s : DiskUtils)

def name (i : Nat) : List Char := s.names.getD i []

def util (i : Nat) : Int64 := (s.dutils[i]?).getD 0

def entry (i : Nat) : List Char := s.name i ++ '=' :: Text.decimal (s.util i).toInt

theorem names_length (readable : s.Readable) : s.names.length = s.didx := by
  unfold names
  rw [List.length_map, List.length_take, Vector.length_toList]
  exact Nat.min_eq_left readable.inTable

theorem name_eq (i : Nat) (used : i < s.didx) (bound : i < maxDiskNum) :
    s.name i = cString s.dnames[i].toList := by
  unfold name names
  rw [List.getD_eq_getElem?_getD, List.getElem?_map, List.getElem?_take_of_lt used,
    Vector.getElem?_toList, Vector.getElem?_eq_getElem bound]
  rfl

theorem range_names (readable : s.Readable) : (List.range s.didx).map s.name = s.names := by
  rw [← s.names_length readable]
  apply List.ext_getElem?
  intro i
  unfold name
  by_cases used : i < s.names.length
  · simp [used]
  · simp [used]

theorem load_row_ok (i : Nat) (bound : i < maxDiskNum) : s.loadRow i = .ok s.dnames[i] := by
  unfold loadRow
  rw [dif_pos bound]

theorem load_util_ok (i : Nat) (bound : i < maxDiskNum) : s.loadUtil i = .ok (s.util i) := by
  unfold loadUtil util
  rw [dif_pos bound, Vector.getElem?_eq_getElem bound]
  rfl

theorem load_name_ok (readable : s.Readable) (i : Nat) (used : i < s.didx) :
    s.loadName i = .ok (s.name i) := by
  have bound : i < maxDiskNum := Nat.lt_of_lt_of_le used readable.inTable
  have ended := readable.ended i bound used
  unfold loadName
  rw [s.load_row_ok i bound, s.name_eq i used bound]
  change (if _ then _ else _) = _
  rw [if_pos ended]
  rfl

theorem load_entry_ok (readable : s.Readable) (i : Nat) (used : i < s.didx) :
    s.loadEntry i = .ok (s.entry i) := by
  unfold loadEntry
  rw [s.load_name_ok readable i used,
    s.load_util_ok i (Nat.lt_of_lt_of_le used readable.inTable)]
  rfl

theorem filter_read_ok (readable : s.Readable) (seq : TraceSeq) :
    s.dutilsFilterRead seq =
      .ok (if s.didx = 0 then seq.puts "none\n".toList else seq.printList s.names) := by
  have loaded := Fallible.mapM_ok s.loadName s.name (List.range s.didx) fun i member =>
    s.load_name_ok readable i (List.mem_range.mp member)
  unfold dutilsFilterRead
  rw [loaded, s.range_names readable]
  split_ifs <;> rfl

/-- Disarming the probe and arming it again if the event is enabled. -/
theorem rearmed : (if s.denabled then s.disableJprobe.enableJprobe else s.disableJprobe) =
    { s with armed := s.denabled } := by
  obtain ⟨dnames, dutils, didx, denabled, armed⟩ := s
  cases denabled <;> rfl

theorem output_read_ok (readable : s.Readable) (seq : TraceSeq) :
    s.dutilsOutputRead seq =
      .ok (if s.didx = 0 then seq.puts "none\n".toList
          else seq.printList ((List.range s.didx).map s.entry),
        { s with armed := s.denabled }) := by
  have loaded := Fallible.mapM_ok s.disableJprobe.loadEntry s.entry (List.range s.didx)
    fun i member => s.disableJprobe.load_entry_ok ⟨readable.inTable, readable.ended⟩ i
      (List.mem_range.mp member)
  unfold dutilsOutputRead
  dsimp only
  change (do
    let seq ← (if s.didx = 0 then _ else do
      let entries ← (List.range s.didx).mapM s.disableJprobe.loadEntry
      _)
    return (seq, if s.denabled then _ else _)) = _
  rw [loaded, s.rearmed]
  split_ifs <;> rfl

end Loads

theorem store_util_ok (s : DiskUtils) (i : Nat) (value : Int64) (bound : i < maxDiskNum) :
    ∃ dutils, s.storeUtil i value = .ok { s with dutils := dutils } ∧
      ∀ j, (dutils[j]?).getD 0 = if j = i then value else s.util j := by
  unfold storeUtil
  rw [dif_pos bound]
  refine ⟨s.dutils.set i value, rfl, ?_⟩
  intro j
  unfold util
  rw [Vector.getElem?_set]
  split_ifs with here same same
  · rfl
  · exact absurd here.symm same
  · exact absurd same.symm here
  · rfl

theorem clear_loop (s : DiskUtils) (count : Nat) (inTable : count ≤ maxDiskNum) :
    ∃ dutils, (List.range count).foldlM (fun s i => s.storeUtil i 0) s =
        .ok { s with dutils := dutils } ∧
      ∀ i, (dutils[i]?).getD 0 = if i < count then 0 else s.util i := by
  induction count with
  | zero => exact ⟨s.dutils, rfl, fun i => (if_neg (Nat.not_lt_zero i)).symm⟩
  | succ count ih =>
      obtain ⟨before, ran, values⟩ := ih (Nat.le_of_lt inTable)
      obtain ⟨after, stored, changed⟩ :=
        { s with dutils := before }.store_util_ok count 0 inTable
      refine ⟨after, ?_, ?_⟩
      · rw [List.range_succ, List.foldlM_append, ran]
        change ({ s with dutils := before }.storeUtil count 0 >>= pure) = _
        rw [stored]
        rfl
      · intro i
        rw [changed i]
        change (if i = count then 0 else (before[i]?).getD 0) = _
        rw [values i]
        split_ifs <;> first | rfl | omega

structure Switched (s : DiskUtils) (value : Bool) (t : DiskUtils) : Prop where
  denabled : t.denabled = value
  armed : t.armed = value
  dnames : t.dnames = s.dnames
  didx : t.didx = if value then s.didx else 0
  util : ∀ i, t.util i = if value = false ∧ i < s.didx then 0 else s.util i

theorem enable_write_ok (s : DiskUtils) (sound : s.Sound) (value : Bool) :
    ∃ t, s.dutilsEnableWrite value = .ok t ∧ s.Switched value t := by
  cases value with
  | true => exact ⟨_, rfl, rfl, rfl, rfl, rfl, fun i => by simp [util, enableJprobe]⟩
  | false =>
      obtain ⟨dutils, ran, values⟩ :=
        { s with denabled := false, armed := false }.clear_loop s.didx sound.inTable
      refine ⟨{ s with didx := 0, denabled := false, armed := false, dutils := dutils },
        ?_, rfl, rfl, rfl, rfl, ?_⟩
      · change ((List.range s.didx).foldlM (fun s i => s.storeUtil i 0)
          { s with denabled := false, armed := false } >>= _) = _
        rw [ran]
        rfl
      · intro i
        simpa [util] using values i

/-- In a row that ends inside itself, `strncmp` compares the whole texts. -/
theorem same_strncmp_iff (dname : List Char) (row : Row) (ended : '\x00' ∈ row.toList) :
    sameStrncmp dname row.toList maxDnameSize = decide (cString row.toList = cString dname) := by
  have short : (cString row.toList).length < maxDnameSize := by
    have parts : cString row.toList ++ row.toList.dropWhile (· ≠ '\x00') = row.toList :=
      List.takeWhile_append_dropWhile
    have rest : row.toList.dropWhile (· ≠ '\x00') ≠ [] := by
      intro none
      have solid := List.dropWhile_eq_nil_iff.mp none '\x00' ended
      exact absurd solid (by decide)
    have lengths := congrArg List.length parts
    rw [List.length_append, Vector.length_toList] at lengths
    have positive := List.length_pos_of_ne_nil rest
    omega
  unfold sameStrncmp
  rw [List.take_of_length_le (Nat.le_of_lt short), Bool.eq_iff_iff, beq_iff_eq, decide_eq_true_iff]
  constructor
  · intro same
    have lengths := congrArg List.length same
    rw [List.length_take] at lengths
    rw [← same, List.take_of_length_le (by omega)]
  · intro same
    rw [← same, List.take_of_length_le (Nat.le_of_lt short)]

theorem dev_idx_from_ok (s : DiskUtils) (readable : s.Readable) (dname : List Char) (left i : Nat)
    (whole : i + left = s.didx) :
    s.devIdxFrom dname left i =
      .ok (((s.names.drop i).findIdx? fun name => name = cString dname).map (· + i)) := by
  induction left generalizing i with
  | zero =>
      rw [List.drop_of_length_le (by rw [s.names_length readable]; omega)]
      rfl
  | succ left ih =>
      have used : i < s.didx := by omega
      have bound : i < maxDiskNum := Nat.lt_of_lt_of_le used readable.inTable
      have inNames : i < s.names.length := by
        rw [s.names_length readable]
        exact used
      have ended := readable.ended i bound used
      have head : s.names.drop i = s.name i :: s.names.drop (i + 1) := by
        unfold name
        rw [List.drop_eq_getElem_cons inNames, List.getD_eq_getElem?_getD,
          List.getElem?_eq_getElem inNames, Option.getD_some]
      unfold devIdxFrom
      rw [s.load_row_ok i bound, head, List.findIdx?_cons, s.name_eq i used bound]
      change (if sameStrncmp dname s.dnames[i].toList maxDnameSize = true then _ else _) = _
      rw [same_strncmp_iff dname _ ended]
      split_ifs with here
      · simp
        rfl
      · rw [ih (i + 1) (by omega), Option.map_map]
        apply congrArg Except.ok
        congr 1
        funext j
        change j + (i + 1) = j + 1 + i
        omega

theorem dev_idx_ok (s : DiskUtils) (readable : s.Readable) (dname : List Char) :
    s.devIdx dname = .ok (s.names.findIdx? fun name => name = cString dname) := by
  have found := s.dev_idx_from_ok readable dname s.didx 0 (Nat.zero_add s.didx)
  rw [List.drop_zero] at found
  unfold devIdx
  rw [found]
  simp

end DiskUtils

namespace PartHit

def disk (hit : PartHit) : HdStruct := if hit.part.partno ≠ 0 then hit.part0 else hit.part

def busy (hit : PartHit) : Bool :=
  timeAfter hit.jiffies hit.disk.stamp && hit.disk.inFlight != 0

def duration (hit : PartHit) : UInt64 := hit.jiffies - hit.disk.stamp

end PartHit

namespace DiskUtils

/-- What the probe leaves: only the counter of the hit's disk may have grown. -/
structure Counted (s : DiskUtils) (hit : PartHit) (t : DiskUtils) : Prop where
  dnames : t.dnames = s.dnames
  didx : t.didx = s.didx
  denabled : t.denabled = s.denabled
  armed : t.armed = s.armed
  util : ∀ i, (t.util i).toUInt64 = (s.util i).toUInt64 +
    if (s.names.findIdx? fun name => name = cString hit.disk.name) = some i ∧ hit.busy then
      hit.duration else 0

theorem hit_ok (s : DiskUtils) (sound : s.Sound) (hit : PartHit) :
    ∃ t, s.onPartRoundStatsEnt hit = .ok t ∧ s.Counted hit t := by
  have found := s.dev_idx_ok sound.readable hit.disk.name
  have unchanged : ∀ p : Nat → Prop, [DecidablePred p] → (∀ i, ¬p i) →
      ∀ i, (s.util i).toUInt64 = (s.util i).toUInt64 + if p i then hit.duration else 0 := by
    intro p _ never i
    rw [if_neg (never i), UInt64.add_zero]
  change ∃ t, (s.devIdx hit.disk.name >>= _) = _ ∧ _
  rw [found]
  cases place : s.names.findIdx? fun name => name = cString hit.disk.name with
  | none =>
      refine ⟨s, rfl, rfl, rfl, rfl, rfl, ?_⟩
      apply unchanged
      intro i counted
      rw [place] at counted
      cases counted.1
  | some idx =>
      have used : idx < maxDiskNum := by
        have inNames := (List.findIdx?_eq_some_iff_getElem.mp place).1
        rw [s.names_length sound.readable] at inNames
        exact Nat.lt_of_lt_of_le inNames sound.inTable
      by_cases busy : hit.busy = true
      · obtain ⟨dutils, stored, values⟩ := s.store_util_ok idx
          ((s.util idx).toUInt64 + hit.duration).toInt64 used
        refine ⟨{ s with dutils := dutils }, ?_, rfl, rfl, rfl, rfl, ?_⟩
        · change (if hit.busy = true then _ else _) = _
          rw [if_pos busy, s.load_util_ok idx used]
          exact stored
        · intro i
          change ((dutils[i]?).getD 0).toUInt64 = _
          rw [values i, place]
          by_cases here : i = idx
          · rw [if_pos here, if_pos ⟨by rw [here], busy⟩, here]
            rfl
          · rw [if_neg here, if_neg, UInt64.add_zero]
            intro counted
            exact here (Option.some.inj counted.1).symm
      · refine ⟨s, ?_, rfl, rfl, rfl, rfl, ?_⟩
        · change (if hit.busy = true then _ else _) = _
          rw [if_neg busy]
          rfl
        · apply unchanged
          intro i counted
          exact busy counted.2

structure Refiltered (s : DiskUtils) (data : List Char) (t : DiskUtils) : Prop where
  didx : t.didx = (storedTokens data).length
  dutils : t.dutils = s.dutils
  denabled : t.denabled = s.denabled
  armed : t.armed = ((filterTokens data).all fitsRow && s.denabled)
  terminated : s.Terminated → t.Terminated
  names : '\x00' ∉ data → t.names = storedTokens data

theorem stored_tokens_solid (data : List Char) (noNul : '\x00' ∉ data) :
    ∀ token ∈ storedTokens data, '\x00' ∉ token := by
  intro token member inside
  have kept : token ∈ filterTokens data := (List.takeWhile_sublist fitsRow).subset member
  have inText := (Text.splitOn_sublist ',' (strstrip data) token (List.mem_of_mem_filter kept)).subset
    inside
  have inData : '\x00' ∈ data.dropWhile isspace :=
    (List.rdropWhile_prefix isspace _).subset inText
  exact noNul ((List.dropWhile_sublist isspace).subset inData)

theorem filter_write_spec (s : DiskUtils) (data : List Char) :
    if (storedTokens data).length ≤ maxDiskNum then
      ∃ t, s.dutilsFilterWrite true data =
          .ok (if (filterTokens data).all fitsRow then .ok () else .error .einval, t) ∧
        s.Refiltered data t
    else s.dutilsFilterWrite true data = .error .outOfBounds := by
  let start : DiskUtils := { s with didx := 0, armed := false }
  have loop := store_tokens_spec (strsep (strstrip data)) start (Nat.zero_le maxDiskNum)
  have size : start.didx + (storedTokens data).length = (storedTokens data).length :=
    Nat.zero_add _
  change (if start.didx + (storedTokens data).length ≤ maxDiskNum then _ else _) at loop
  rw [size] at loop
  by_cases inside : (storedTokens data).length ≤ maxDiskNum
  · rw [if_pos inside] at loop ⊢
    obtain ⟨t, ran, stores⟩ := loop
    change storeTokens _ start = .ok (if (filterTokens data).all fitsRow then _ else _, t) at ran
    have noNames : start.names = [] := rfl
    have armed : t.armed = false := stores.armed
    refine ⟨if (filterTokens data).all fitsRow && s.denabled then t.enableJprobe else t, ?_, ?_⟩
    · change (storeTokens (strsep (strstrip data)) start >>= _) = _
      rw [ran]
      have enabled : t.denabled = s.denabled := stores.denabled
      by_cases fit : (filterTokens data).all fitsRow = true
      · rw [if_pos fit, fit, Bool.true_and, ← enabled]
        rfl
      · rw [if_neg fit, Bool.eq_false_iff.mpr fit]
        rfl
    · have names : '\x00' ∉ data → t.names = storedTokens data := by
        intro noNul
        have all := stores.names (stored_tokens_solid data noNul)
        rwa [noNames, List.nil_append] at all
      have didx : t.didx = (storedTokens data).length := stores.didx.trans size
      split_ifs with rearm
      · exact ⟨didx, stores.dutils, stores.denabled, rearm.symm, stores.terminated, names⟩
      · exact ⟨didx, stores.dutils, stores.denabled, armed.trans (Bool.eq_false_iff.mpr rearm).symm,
          stores.terminated, names⟩
  · rw [if_neg inside] at loop ⊢
    change (storeTokens (strsep (strstrip data)) start >>= _) = _
    rw [loop]
    rfl

end DiskUtils

/-- A filter text that reaches the token loop stores at most `MAX_DISK_NUM`
tokens. -/
def DiskOp.InBounds : DiskOp → Prop
  | .writeFilter page dup ubuf =>
      ubuf.length < pageSize ∧ page ∧ dup → (storedTokens (cString ubuf)).length ≤ maxDiskNum
  | _ => True

namespace DiskUtils

def Moves (s : DiskUtils) (op : DiskOp) (t : DiskUtils) : Prop :=
  match op with
  | .writeEnable ubuf =>
      match enableValue ubuf with
      | some value => s.Switched value t
      | none => t = s
  | .writeFilter page dup ubuf =>
      if ubuf.length < pageSize ∧ page ∧ dup then s.Refiltered (cString ubuf) t else t = s
  | .readOutput => t = { s with armed := s.denabled }
  | .hit hit => if s.armed then s.Counted hit t else t = s
  | .readEnable => t = s
  | .readFilter => t = s
  | .writeOutput => t = s

theorem step_moves (s : DiskUtils) (sound : s.Sound) (op : DiskOp) (inBounds : op.InBounds) :
    ∃ t, s.step op = .ok t ∧ s.Moves op t := by
  cases op with
  | writeEnable ubuf =>
      unfold step Moves
      dsimp only
      rw [enable_write_state]
      cases enableValue ubuf with
      | none => exact ⟨s, rfl, rfl⟩
      | some value => exact s.enable_write_ok sound value
  | readEnable => exact ⟨s, rfl, rfl⟩
  | writeFilter page dup ubuf =>
      unfold step Moves
      dsimp only
      rw [filter_write_state]
      by_cases reached : ubuf.length < pageSize ∧ page ∧ dup
      · have spec := s.filter_write_spec (cString ubuf)
        rw [if_pos (inBounds reached)] at spec
        obtain ⟨t, ran, refiltered⟩ := spec
        refine ⟨t, ?_, ?_⟩
        · rw [if_pos ⟨reached.1, reached.2.1⟩, reached.2.2, ran]
          rfl
        · rw [if_pos reached]
          exact refiltered
      · refine ⟨s, ?_, by rw [if_neg reached]⟩
        split_ifs with paged
        · have missing : dup = false := by
            cases dup with
            | false => rfl
            | true => exact absurd ⟨paged.1, paged.2, rfl⟩ reached
          rw [missing]
          rfl
        · rfl
  | readFilter =>
      unfold step Moves
      dsimp only
      rw [s.filter_read_ok sound.readable]
      exact ⟨s, rfl, rfl⟩
  | writeOutput => exact ⟨s, rfl, rfl⟩
  | readOutput =>
      unfold step Moves
      dsimp only
      rw [s.output_read_ok sound.readable]
      exact ⟨_, rfl, rfl⟩
  | hit hit =>
      unfold step Moves
      dsimp only
      split_ifs with armed
      · exact s.hit_ok sound hit
      · exact ⟨s, rfl, rfl⟩

theorem step_out_of_bounds (s : DiskUtils) (op : DiskOp) (outside : ¬op.InBounds) :
    s.step op = .error .outOfBounds := by
  cases op with
  | writeFilter page dup ubuf =>
      unfold DiskOp.InBounds at outside
      obtain ⟨reached, many⟩ := Classical.not_imp.mp outside
      have spec := s.filter_write_spec (cString ubuf)
      rw [if_neg many] at spec
      unfold step
      dsimp only
      rw [filter_write_state, if_pos ⟨reached.1, reached.2.1⟩, reached.2.2, spec]
      rfl
  | writeEnable ubuf => exact absurd trivial outside
  | readEnable => exact absurd trivial outside
  | readFilter => exact absurd trivial outside
  | writeOutput => exact absurd trivial outside
  | readOutput => exact absurd trivial outside
  | hit hit => exact absurd trivial outside

theorem step_ok_iff (s : DiskUtils) (op : DiskOp) (sound : s.Sound) :
    (∃ t, s.step op = .ok t) ↔ op.InBounds := by
  constructor
  · intro ⟨t, ran⟩
    by_contra outside
    rw [s.step_out_of_bounds op outside] at ran
    cases ran
  · intro inBounds
    obtain ⟨t, ran, _⟩ := s.step_moves sound op inBounds
    exact ⟨t, ran⟩

theorem step_cases (s : DiskUtils) (op : DiskOp) (t : DiskUtils) (sound : s.Sound)
    (ran : s.step op = .ok t) : op.InBounds ∧ s.Moves op t := by
  have inBounds := (s.step_ok_iff op sound).mp ⟨t, ran⟩
  obtain ⟨u, same, moves⟩ := s.step_moves sound op inBounds
  rw [ran] at same
  rw [Except.ok.inj same]
  exact ⟨inBounds, moves⟩

theorem moves_sound (s : DiskUtils) (op : DiskOp) (t : DiskUtils) (sound : s.Sound)
    (inBounds : op.InBounds) (moves : s.Moves op t) : t.Sound := by
  have same : ∀ t : DiskUtils, t = s → t.Sound := by
    intro t equal
    rw [equal]
    exact sound
  have kept : ∀ t : DiskUtils, t.dnames = s.dnames → t.didx ≤ s.didx → t.Sound := by
    intro t dnames didx
    refine ⟨Nat.le_trans didx sound.inTable, ?_⟩
    unfold Terminated
    rw [dnames]
    exact sound.terminated
  cases op with
  | writeEnable ubuf =>
      unfold Moves at moves
      dsimp only at moves
      cases value : enableValue ubuf with
      | none =>
          rw [value] at moves
          exact same t moves
      | some value' =>
          rw [value] at moves
          apply kept t moves.dnames
          rw [moves.didx]
          split_ifs <;> omega
  | readEnable => exact same t moves
  | writeFilter page dup ubuf =>
      unfold Moves at moves
      dsimp only at moves
      split_ifs at moves with reached
      · refine ⟨?_, moves.terminated sound.terminated⟩
        rw [moves.didx]
        exact inBounds reached
      · exact same t moves
  | readFilter => exact same t moves
  | writeOutput => exact same t moves
  | readOutput =>
      have rearmed : t = { s with armed := s.denabled } := moves
      rw [rearmed]
      exact ⟨sound.inTable, sound.terminated⟩
  | hit hit =>
      unfold Moves at moves
      dsimp only at moves
      split_ifs at moves with armed
      · exact kept t moves.dnames (Nat.le_of_eq moves.didx)
      · exact same t moves

theorem step_sound (s : DiskUtils) (op : DiskOp) (t : DiskUtils) (sound : s.Sound)
    (ran : s.step op = .ok t) : t.Sound := by
  obtain ⟨inBounds, moves⟩ := s.step_cases op t sound ran
  exact s.moves_sound op t sound inBounds moves

/-- No access of a run leaves the table, and the index is within it in every
state reached, exactly when no filter text stores too many tokens. -/
theorem disk_table_safe_iff (ops : List DiskOp) :
    ((∃ final, Runs.run step init ops = .ok final) ∧
        ∀ s ∈ Runs.visited step init ops, s.didx ≤ maxDiskNum) ↔
      ∀ op ∈ ops, op.InBounds := by
  have ends := Runs.run_ok_iff DiskOp.InBounds step_ok_iff step_sound init init_sound ops
  rw [← ends]
  constructor
  · exact fun safe => safe.1
  · intro ran
    refine ⟨ran, ?_⟩
    intro s reached
    exact (Runs.visited_invariant step_sound init init_sound ops s reached).inTable

def manyNames : List Char := ['a'] ++ (List.replicate 20 [',', 'a']).flatten

theorem many_names_overflow :
    manyNames.length < pageSize ∧
      Runs.run step init [.writeFilter true true manyNames] = .error .outOfBounds := by
  refine ⟨by decide, ?_⟩
  have outside : ¬(DiskOp.writeFilter true true manyNames).InBounds := by
    intro inBounds
    have few := inBounds ⟨by decide, rfl, rfl⟩
    exact absurd few (by decide)
  have failed := step_out_of_bounds init (.writeFilter true true manyNames) outside
  change (step init (.writeFilter true true manyNames) >>= _) = _
  rw [failed]
  rfl

end DiskUtils

end WPerf.Module
