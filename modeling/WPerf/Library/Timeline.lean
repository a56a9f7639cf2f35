import WPerf.Library.OrderedMap
import Mathlib.Algebra.BigOperators.Group.List.Basic
import Mathlib.Algebra.GroupWithZero.Nat
import Mathlib.Data.List.Induction
import Mathlib.Order.MinMax
import Mathlib.Order.Monotone.Basic

/-!
# Pieces of a timeline

A piece runs from its start to its finish. A recorder that cuts a timeline
stores each piece in an ordered map under its start, so two pieces with one
start overwrite each other. This file says which pieces survive, when the
surviving pieces still tile the line, and how much length disjoint pieces of a
window can have.
-/

namespace WPerf.Library.Timeline

set_option autoImplicit false

variable {Time Piece : Type*} [LinearOrder Time] (start finish : Piece → Time)

/-- The pieces run from `lower` to `upper`, each from where the one before it
ended and none of them backwards. A piece may be a single point. -/
def Covers : Time → List Piece → Time → Prop
  | lower, [], upper => lower = upper
  | lower, piece :: rest, upper =>
      start piece = lower ∧ start piece ≤ finish piece ∧ Covers (finish piece) rest upper

/-- As `Covers`, with every piece more than a point. -/
def Tiles : Time → List Piece → Time → Prop
  | lower, [], upper => lower = upper
  | lower, piece :: rest, upper =>
      start piece = lower ∧ start piece < finish piece ∧ Tiles (finish piece) rest upper

def positive (pieces : List Piece) : List Piece :=
  pieces.filter fun piece => start piece < finish piece

theorem mem_positive (pieces : List Piece) (piece : Piece) :
    piece ∈ positive start finish pieces ↔ piece ∈ pieces ∧ start piece < finish piece := by
  simp [positive]

theorem covers_append (lower upper : Time) (front back : List Piece) :
    Covers start finish lower (front ++ back) upper ↔
      ∃ middle, Covers start finish lower front middle ∧
        Covers start finish middle back upper := by
  induction front generalizing lower with
  | nil => simp [Covers]
  | cons piece rest ih =>
      simp only [List.cons_append, Covers, ih]
      constructor
      · rintro ⟨begins, forward, middle, left, right⟩
        exact ⟨middle, ⟨begins, forward, left⟩, right⟩
      · rintro ⟨middle, ⟨begins, forward, left⟩, right⟩
        exact ⟨begins, forward, middle, left, right⟩

theorem covers_le {lower upper : Time} {pieces : List Piece}
    (covers : Covers start finish lower pieces upper) : lower ≤ upper := by
  induction pieces generalizing lower with
  | nil => exact le_of_eq covers
  | cons piece rest ih =>
      rcases covers with ⟨begins, forward, tail⟩
      rw [← begins]
      exact forward.trans (ih tail)

theorem covers_bounds {lower upper : Time} {pieces : List Piece}
    (covers : Covers start finish lower pieces upper) (piece : Piece) (member : piece ∈ pieces) :
    lower ≤ start piece ∧ start piece ≤ finish piece ∧ finish piece ≤ upper := by
  induction pieces generalizing lower with
  | nil => simp at member
  | cons head rest ih =>
      rcases covers with ⟨begins, forward, tail⟩
      rcases List.mem_cons.mp member with rfl | later
      · exact ⟨le_of_eq begins.symm, forward, covers_le start finish tail⟩
      · rcases ih tail later with ⟨low, order, high⟩
        refine ⟨?_, order, high⟩
        rw [← begins]
        exact forward.trans low

theorem covers_pairwise {lower upper : Time} {pieces : List Piece}
    (covers : Covers start finish lower pieces upper) :
    pieces.Pairwise fun earlier later => finish earlier ≤ start later := by
  induction pieces generalizing lower with
  | nil => exact List.Pairwise.nil
  | cons head rest ih =>
      rcases covers with ⟨_, _, tail⟩
      refine List.pairwise_cons.mpr ⟨?_, ih tail⟩
      intro later member
      exact (covers_bounds start finish tail later member).1

theorem tiles_covers {lower upper : Time} {pieces : List Piece}
    (tiles : Tiles start finish lower pieces upper) :
    Covers start finish lower pieces upper := by
  induction pieces generalizing lower with
  | nil => exact tiles
  | cons piece rest ih =>
      rcases tiles with ⟨begins, forward, tail⟩
      exact ⟨begins, le_of_lt forward, ih tail⟩

theorem tiles_append (lower upper : Time) (front back : List Piece) :
    Tiles start finish lower (front ++ back) upper ↔
      ∃ middle, Tiles start finish lower front middle ∧
        Tiles start finish middle back upper := by
  induction front generalizing lower with
  | nil => simp [Tiles]
  | cons piece rest ih =>
      simp only [List.cons_append, Tiles, ih]
      constructor
      · rintro ⟨begins, forward, middle, left, right⟩
        exact ⟨middle, ⟨begins, forward, left⟩, right⟩
      · rintro ⟨middle, ⟨begins, forward, left⟩, right⟩
        exact ⟨begins, forward, middle, left, right⟩

theorem tiles_split {lower upper : Time} {front back : List Piece} {piece : Piece}
    (tiles : Tiles start finish lower (front ++ piece :: back) upper) :
    Covers start finish lower front (start piece) ∧ start piece < finish piece ∧
      Tiles start finish (finish piece) back upper := by
  obtain ⟨middle, before, begins, forward, after⟩ :=
    (tiles_append start finish lower upper front (piece :: back)).mp tiles
  rw [begins]
  refine ⟨tiles_covers start finish before, ?_, after⟩
  rw [← begins]
  exact forward

theorem covers_positive_tiles {lower upper : Time} {pieces : List Piece}
    (covers : Covers start finish lower pieces upper) :
    Tiles start finish lower (positive start finish pieces) upper := by
  induction pieces generalizing lower with
  | nil => exact covers
  | cons piece rest ih =>
      rcases covers with ⟨begins, forward, tail⟩
      by_cases long : start piece < finish piece
      · have kept : positive start finish (piece :: rest) =
            piece :: positive start finish rest := by
          simp [positive, long]
        rw [kept]
        exact ⟨begins, long, ih tail⟩
      · have dropped : positive start finish (piece :: rest) = positive start finish rest := by
          simp [positive, long]
        have point : finish piece = lower := by
          rw [← begins]
          exact le_antisymm (not_lt.mp long) forward
        rw [dropped, ← point]
        exact ih tail

def recordAll (pieces : List Piece) (map : OrderedMap Time Piece) : OrderedMap Time Piece :=
  pieces.foldl (fun map piece => map.put (start piece) piece) map

theorem record_all_append (front back : List Piece) (map : OrderedMap Time Piece) :
    recordAll start (front ++ back) map = recordAll start back (recordAll start front map) := by
  simp [recordAll]

/-- An entry is the last piece recorded under its key, or was there before and
no recorded piece has its key. -/
theorem mem_record_all (pieces : List Piece) (map : OrderedMap Time Piece)
    (entry : Time × Piece) :
    entry ∈ (recordAll start pieces map).entries ↔
      (∃ before after, pieces = before ++ entry.2 :: after ∧ entry.1 = start entry.2 ∧
          ∀ later ∈ after, start later ≠ entry.1) ∨
        (entry ∈ map.entries ∧ ∀ piece ∈ pieces, start piece ≠ entry.1) := by
  have puts : recordAll start pieces map =
      map.putAll (pieces.map fun piece => (start piece, piece)) := by
    rw [OrderedMap.putAll, List.foldl_map]
    rfl
  rw [puts, OrderedMap.mem_put_all]
  apply or_congr
  · constructor
    · rintro ⟨before, after, split, last⟩
      obtain ⟨front, tail, parted, _, tailIs⟩ := List.map_eq_append_iff.mp split
      obtain ⟨piece, back, cut, rfl, rfl⟩ := List.map_eq_cons_iff.mp tailIs
      exact ⟨front, back, by rw [parted, cut], rfl,
        fun later member => last _ (List.mem_map_of_mem member)⟩
    · rintro ⟨before, after, split, key, last⟩
      refine ⟨before.map fun piece => (start piece, piece),
        after.map fun piece => (start piece, piece), ?_, ?_⟩
      · rw [split, List.map_append, List.map_cons, ← key]
      · exact List.forall_mem_map.mpr last
  · rw [List.forall_mem_map]

theorem record_all_key (pieces : List Piece) (map : OrderedMap Time Piece) (piece : Piece)
    (member : piece ∈ pieces) :
    ∃ stored, (start piece, stored) ∈ (recordAll start pieces map).entries := by
  induction pieces using List.reverseRecOn with
  | nil => simp at member
  | append_singleton front last ih =>
      have unfolded : recordAll start (front ++ [last]) map =
          (recordAll start front map).put (start last) last :=
        record_all_append start front [last] map
      rw [unfolded]
      by_cases same : start piece = start last
      · exact ⟨last, (OrderedMap.mem_put _ _ _ _).mpr (Or.inl (by rw [same]))⟩
      · have earlier : piece ∈ front := by
          rcases List.mem_append.mp member with found | atEnd
          · exact found
          · exact absurd (congrArg start (List.mem_singleton.mp atEnd)) same
        rcases ih earlier with ⟨stored, found⟩
        exact ⟨stored, (OrderedMap.mem_put _ _ _ _).mpr (Or.inr ⟨found, same⟩)⟩

/-- Recording over a map that has no other keys forgets the map. -/
theorem record_all_over (pieces : List Piece) (map : OrderedMap Time Piece)
    (covered : ∀ entry ∈ map.entries, ∃ piece ∈ pieces, start piece = entry.1) :
    recordAll start pieces map = recordAll start pieces ∅ := by
  apply OrderedMap.ext_mem
  intro entry
  rw [mem_record_all, mem_record_all]
  apply or_congr_right
  constructor
  · intro ⟨member, untouched⟩
    rcases covered entry member with ⟨piece, pieceMember, same⟩
    exact absurd same (untouched piece pieceMember)
  · intro ⟨absent, _⟩
    simp at absent

theorem recorded_under_start (pieces : List Piece) (entry : Time × Piece)
    (member : entry ∈ (recordAll start pieces ∅).entries) : entry.1 = start entry.2 := by
  rcases (mem_record_all start pieces ∅ entry).mp member with ⟨_, _, _, key, _⟩ | ⟨absent, _⟩
  · exact key
  · simp at absent

theorem recorded_mem (pieces : List Piece) (piece : Piece)
    (member : piece ∈ (recordAll start pieces ∅).values) : piece ∈ pieces := by
  rcases List.mem_map.mp member with ⟨entry, entryMember, rfl⟩
  rcases (mem_record_all start pieces ∅ entry).mp entryMember with
    ⟨before, after, split, _, _⟩ | ⟨absent, _⟩
  · rw [split]
    simp
  · simp at absent

/-- If no piece that is more than a point shares its start with a later one,
the map holds exactly the positive pieces of the record. -/
theorem recorded_positive_mem {pieces : List Piece}
    (kept : pieces.Pairwise fun earlier later =>
      start earlier < finish earlier → start later ≠ start earlier)
    (piece : Piece) :
    piece ∈ positive start finish (recordAll start pieces ∅).values ↔
      piece ∈ positive start finish pieces := by
  simp only [mem_positive]
  refine and_congr_left fun long => ⟨recorded_mem start pieces piece, ?_⟩
  intro member
  rcases List.append_of_mem member with ⟨before, after, split⟩
  have order := kept
  rw [split] at order
  have survives : ∀ later ∈ after, start later ≠ start piece := by
    intro later laterMember
    have tail := (List.pairwise_append.mp order).2.1
    exact (List.pairwise_cons.mp tail).1 later laterMember long
  have entryMember : (start piece, piece) ∈ (recordAll start pieces ∅).entries :=
    (mem_record_all start pieces ∅ (start piece, piece)).mpr
      (Or.inl ⟨before, after, split, rfl, survives⟩)
  exact List.mem_map.mpr ⟨(start piece, piece), entryMember, rfl⟩

theorem recorded_values_ordered (pieces : List Piece) :
    (recordAll start pieces ∅).values.Pairwise fun earlier later =>
      start earlier < start later := by
  rw [OrderedMap.values, List.pairwise_map]
  refine (recordAll start pieces ∅).sorted.imp_of_mem ?_
  intro left right leftMember rightMember order
  rw [← recorded_under_start start pieces left leftMember,
    ← recorded_under_start start pieces right rightMember]
  exact order

theorem eq_of_ordered {left right : List Piece}
    (leftOrdered : left.Pairwise fun earlier later => start earlier < start later)
    (rightOrdered : right.Pairwise fun earlier later => start earlier < start later)
    (same : ∀ piece, piece ∈ left ↔ piece ∈ right) : left = right := by
  have strict : ∀ pieces : List Piece,
      (pieces.Pairwise fun earlier later => start earlier < start later) → pieces.Nodup := by
    intro pieces order
    refine order.imp ?_
    intro earlier later less equal
    rw [equal] at less
    exact lt_irrefl _ less
  have permutation :=
    (List.perm_ext_iff_of_nodup (strict left leftOrdered) (strict right rightOrdered)).mpr same
  refine permutation.eq_of_pairwise ?_ leftOrdered rightOrdered
  intro first second _ _ forward backward
  exact absurd (forward.trans backward) (lt_irrefl _)

theorem recorded_positive_values {pieces : List Piece}
    (kept : pieces.Pairwise fun earlier later =>
      start earlier < finish earlier → start later ≠ start earlier)
    (ordered : (positive start finish pieces).Pairwise fun earlier later =>
      start earlier < start later) :
    positive start finish (recordAll start pieces ∅).values = positive start finish pieces :=
  eq_of_ordered start ((recorded_values_ordered start pieces).filter _) ordered
    (recorded_positive_mem start finish kept)

def between (lower upper : Time) (pieces : List Piece) : List Piece :=
  (positive start finish pieces).filter fun piece => lower ≤ start piece ∧ finish piece ≤ upper

theorem mem_between (lower upper : Time) (pieces : List Piece) (piece : Piece) :
    piece ∈ between start finish lower upper pieces ↔
      piece ∈ pieces ∧ start piece < finish piece ∧ lower ≤ start piece ∧
        finish piece ≤ upper := by
  rw [between, List.mem_filter, mem_positive, decide_eq_true_iff, and_assoc]

theorem between_point (time : Time) (pieces : List Piece) :
    between start finish time time pieces = [] := by
  apply List.eq_nil_iff_forall_not_mem.mpr
  intro piece member
  obtain ⟨_, long, low, high⟩ := (mem_between start finish time time pieces piece).mp member
  exact absurd (high.trans low) (not_le.mpr long)

/-- A positive piece of a cover stays in the map, unless a piece recorded after
the cover has its start. -/
theorem recorded_survives {lower upper : Time} {body : List Piece} (front back : List Piece)
    (covers : Covers start finish lower body upper) (piece : Piece) (own : piece ∈ body)
    (long : start piece < finish piece) (spared : ∀ later ∈ back, start later ≠ start piece) :
    piece ∈ (recordAll start (front ++ body ++ back) ∅).values := by
  obtain ⟨before, after, split⟩ := List.append_of_mem own
  have follows := covers_pairwise start finish covers
  rw [split] at follows
  have tail := (List.pairwise_append.mp follows).2.1
  have stored : (start piece, piece) ∈ (recordAll start (front ++ body ++ back) ∅).entries := by
    refine (mem_record_all start _ ∅ (start piece, piece)).mpr
      (Or.inl ⟨front ++ before, after ++ back, by simp [split], rfl, ?_⟩)
    intro later member
    rcases List.mem_append.mp member with inBody | inBack
    · exact ne_of_gt (long.trans_le ((List.pairwise_cons.mp tail).1 later inBody))
    · exact spared later inBack
  exact List.mem_map.mpr ⟨(start piece, piece), stored, rfl⟩

theorem recorded_last (front back : List Piece) (piece : Piece) (member : piece ∈ back) :
    ∃ stored ∈ back, start stored = start piece ∧
      stored ∈ (recordAll start (front ++ back) ∅).values := by
  rw [record_all_append]
  obtain ⟨stored, found⟩ := record_all_key start back (recordAll start front ∅) piece member
  rcases (mem_record_all start back _ (start piece, stored)).mp found with
    ⟨before, after, split, key, _⟩ | ⟨_, untouched⟩
  · refine ⟨stored, ?_, key.symm, List.mem_map.mpr ⟨_, found, rfl⟩⟩
    rw [split]
    exact List.mem_append_right before List.mem_cons_self
  · exact absurd rfl (untouched piece member)

/-- A tiling has no piece to spare: a part of it that tiles the same stretch
is all of it. -/
theorem tiles_eq_of_subset {lower upper : Time} {left right : List Piece}
    (leftTiles : Tiles start finish lower left upper)
    (rightTiles : Tiles start finish lower right upper) (part : ∀ piece ∈ left, piece ∈ right) :
    left = right := by
  induction left generalizing lower right with
  | nil =>
      cases right with
      | nil => rfl
      | cons head others =>
          obtain ⟨begins, forward, tail⟩ := rightTiles
          have ends := covers_le start finish (tiles_covers start finish tail)
          rw [begins, show lower = upper from leftTiles] at forward
          exact absurd forward (not_lt.mpr ends)
  | cons piece rest ih =>
      cases right with
      | nil => exact absurd (part piece List.mem_cons_self) List.not_mem_nil
      | cons head others =>
          obtain ⟨begins, forward, tail⟩ := leftTiles
          obtain ⟨headBegins, headForward, headTail⟩ := rightTiles
          have behind := covers_bounds start finish (tiles_covers start finish headTail)
          have same : piece = head := by
            rcases List.mem_cons.mp (part piece List.mem_cons_self) with same | later
            · exact same
            · have low := (behind piece later).1
              rw [begins, ← headBegins] at low
              exact absurd headForward (not_lt.mpr low)
          rw [same] at tail forward
          have restPart : ∀ other ∈ rest, other ∈ others := by
            intro other member
            rcases List.mem_cons.mp (part other (List.mem_cons_of_mem piece member)) with
              again | later
            · have low := (covers_bounds start finish (tiles_covers start finish tail) other member).1
              rw [again] at low
              exact absurd forward (not_lt.mpr low)
            · exact later
          rw [same, ih tail headTail restPart]

/-- A cover keeps its positive pieces when it is recorded after pieces that
are not positive and before such pieces at or past its end. -/
theorem covers_recorded {lower upper : Time} {front body back : List Piece}
    (covers : Covers start finish lower body upper)
    (frontShort : ∀ piece ∈ front, finish piece ≤ start piece)
    (backShort : ∀ piece ∈ back, finish piece ≤ start piece)
    (backLate : ∀ piece ∈ back, upper ≤ start piece) :
    positive start finish (recordAll start (front ++ body ++ back) ∅).values =
      positive start finish body := by
  have shortList : ∀ pieces : List Piece, (∀ piece ∈ pieces, finish piece ≤ start piece) →
      positive start finish pieces = [] := by
    intro pieces short
    apply List.filter_eq_nil_iff.mpr
    intro piece member
    simpa using short piece member
  have whole : positive start finish (front ++ body ++ back) = positive start finish body := by
    have split : positive start finish (front ++ body ++ back) =
        positive start finish front ++ positive start finish body ++
          positive start finish back := by
      simp [positive]
    rw [split, shortList front frontShort, shortList back backShort]
    simp
  have follows := covers_pairwise start finish covers
  have inside := covers_bounds start finish covers
  have kept : (front ++ body ++ back).Pairwise fun earlier later =>
      start earlier < finish earlier → start later ≠ start earlier := by
    rw [List.pairwise_append, List.pairwise_append]
    have frontFree : ∀ earlier ∈ front, ∀ later : Piece,
        start earlier < finish earlier → start later ≠ start earlier :=
      fun earlier member _ long => absurd long (not_lt.mpr (frontShort earlier member))
    refine ⟨⟨?_, ?_, fun earlier member later _ => frontFree earlier member later⟩, ?_, ?_⟩
    · exact List.pairwise_of_forall_mem_list fun earlier member later _ =>
        frontFree earlier member later
    · refine follows.imp ?_
      intro earlier later order long
      exact ne_of_gt (long.trans_le order)
    · exact List.pairwise_of_forall_mem_list fun earlier member _ _ long =>
        absurd long (not_lt.mpr (backShort earlier member))
    · intro earlier member later laterMember
      rcases List.mem_append.mp member with inFront | inBody
      · exact frontFree earlier inFront later
      · intro long
        have bound := (inside earlier inBody).2.2.trans (backLate later laterMember)
        exact ne_of_gt (long.trans_le bound)
  have ordered : (positive start finish (front ++ body ++ back)).Pairwise fun earlier later =>
      start earlier < start later := by
    rw [whole]
    refine (follows.filter _).imp_of_mem ?_
    intro earlier later member _ order
    exact ((mem_positive start finish body earlier).mp member).2.trans_le order
  rw [recorded_positive_values start finish kept ordered, whole]

def Apart (left right : Piece) : Prop :=
  min (finish left) (finish right) ≤ max (start left) (start right)

theorem apart_of_before {left right : Piece} (before : finish left ≤ start right) :
    Apart start finish left right :=
  (min_le_left _ _).trans (before.trans (le_max_right _ _))

theorem apart_of_after {left right : Piece} (after : finish right ≤ start left) :
    Apart start finish left right :=
  (min_le_right _ _).trans (after.trans (le_max_left _ _))

theorem apart_of_point {left right : Piece} (point : start left = finish left) :
    Apart start finish left right := by
  unfold Apart
  rw [← point]
  exact (min_le_left _ _).trans (le_max_left _ _)

theorem apart_symm {left right : Piece} (apart : Apart start finish left right) :
    Apart start finish right left := by
  unfold Apart at apart ⊢
  rw [min_comm, max_comm]
  exact apart

theorem before_of_apart {left right : Piece} (apart : Apart start finish left right)
    (order : start left < start right) (rightLong : start right < finish right) :
    finish left ≤ start right := by
  unfold Apart at apart
  rw [max_eq_right order.le] at apart
  rcases min_le_iff.mp apart with ends | absurdEnd
  · exact ends
  · exact absurd rightLong (not_lt.mpr absurdEnd)

/-- Pieces that follow one another inside a window have no more length than
the window. Lengths are measured by a monotone scale. -/
theorem disjoint_lengths_le (scale : Time → ℕ) (monotone : Monotone scale)
    {lower upper : Time} (pieces : List Piece) (window : lower ≤ upper)
    (apart : pieces.Pairwise fun earlier later => finish earlier ≤ start later)
    (inside : ∀ piece ∈ pieces,
      lower ≤ start piece ∧ start piece ≤ finish piece ∧ finish piece ≤ upper) :
    (pieces.map fun piece => scale (finish piece) - scale (start piece)).sum ≤
      scale upper - scale lower := by
  induction pieces generalizing lower with
  | nil => simp
  | cons piece rest ih =>
      rcases List.pairwise_cons.mp apart with ⟨headFirst, restApart⟩
      rcases inside piece (by simp) with ⟨low, forward, high⟩
      have restInside : ∀ later ∈ rest,
          finish piece ≤ start later ∧ start later ≤ finish later ∧ finish later ≤ upper := by
        intro later member
        exact ⟨headFirst later member, (inside later (by simp [member])).2⟩
      have tail := ih high restApart restInside
      have lowScale := monotone low
      have forwardScale := monotone forward
      have highScale := monotone high
      simp only [List.map_cons, List.sum_cons]
      omega

theorem apart_lengths_le (scale : Time → ℕ) (monotone : Monotone scale)
    {lower upper : Time} (pieces : List Piece) (window : lower ≤ upper)
    (ordered : pieces.Pairwise fun earlier later => start earlier < start later)
    (apart : pieces.Pairwise (Apart start finish))
    (inside : ∀ piece ∈ pieces,
      lower ≤ start piece ∧ start piece ≤ finish piece ∧ finish piece ≤ upper) :
    (pieces.map fun piece => scale (finish piece) - scale (start piece)).sum ≤
      scale upper - scale lower := by
  have follows : (positive start finish pieces).Pairwise fun earlier later =>
      finish earlier ≤ start later := by
    refine ((ordered.and apart).filter _).imp_of_mem ?_
    intro earlier later _ laterMember both
    exact before_of_apart start finish both.2 both.1
      ((mem_positive start finish pieces later).mp laterMember).2
  have bound := disjoint_lengths_le start finish scale monotone (positive start finish pieces)
    window follows
    (fun piece member => inside piece ((mem_positive start finish pieces piece).mp member).1)
  -- points have no length, so dropping them does not change the sum
  have sameSum : (pieces.map fun piece => scale (finish piece) - scale (start piece)).sum =
      ((positive start finish pieces).map fun piece =>
        scale (finish piece) - scale (start piece)).sum := by
    clear bound follows ordered apart
    induction pieces with
    | nil => rfl
    | cons piece rest ih =>
        have tail := ih fun other member => inside other (List.mem_cons_of_mem piece member)
        by_cases long : start piece < finish piece
        · have kept : positive start finish (piece :: rest) =
              piece :: positive start finish rest := by
            simp [positive, long]
          rw [kept, List.map_cons, List.map_cons, List.sum_cons, List.sum_cons, tail]
        · have dropped : positive start finish (piece :: rest) =
              positive start finish rest := by
            simp [positive, long]
          have point : finish piece = start piece :=
            le_antisymm (not_lt.mp long) (inside piece List.mem_cons_self).2.1
          rw [dropped, List.map_cons, List.sum_cons, tail, point, Nat.sub_self, Nat.zero_add]
  rw [sameSum]
  exact bound

end WPerf.Library.Timeline
