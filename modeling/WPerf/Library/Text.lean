import Mathlib.Data.List.Destutter
import Mathlib.Data.List.DropRight
import Mathlib.Data.List.Infix
import Mathlib.Tactic.SplitIfs

/-!
# Cutting text

Texts are lists. Cutting at the first or last occurrence of a separator,
splitting from the right a bounded number of times, repeated separators taken
together, the words between blanks, and decimal numerals. Each operation comes with what it does to a text put
together from parts.
-/

namespace WPerf.Library.Text

set_option autoImplicit false

/-- Decided member by member, not over all characters there are. -/
instance decidableEachChar (s : List Char) (p : Char → Prop) [DecidablePred p] :
    Decidable (∀ c ∈ s, p c) :=
  List.decidableBAll p s

section Separators

variable {α : Type*} [DecidableEq α]

/-- The text before and after the first occurrence of a nonempty separator. -/
def cut (sep : List α) : List α → Option (List α × List α)
  | [] => none
  | c :: rest =>
      if sep <+: c :: rest then some ([], (c :: rest).drop sep.length)
      else (cut sep rest).map fun parts => (c :: parts.1, parts.2)

def cutLast (sep s : List α) : Option (List α × List α) :=
  (cut sep.reverse s.reverse).map fun parts => (parts.2.reverse, parts.1.reverse)

/-- Splits at the last occurrences, at most so many times. -/
def rsplit (sep : List α) : Nat → List α → List (List α)
  | 0, s => [s]
  | count + 1, s =>
      match cutLast sep s with
      | none => [s]
      | some (front, back) => rsplit sep count front ++ [back]

variable {sep : List α}

theorem cut_none_iff (nonempty : sep ≠ []) (s : List α) : cut sep s = none ↔ ¬sep <:+: s := by
  induction s with
  | nil => simp [cut, nonempty]
  | cons c rest ih =>
      unfold cut
      by_cases here : sep <+: c :: rest
      · rw [if_pos here]
        simp [here.isInfix]
      · rw [if_neg here, Option.map_eq_none_iff, ih, List.infix_cons_iff]
        simp [here]

theorem cut_some (nonempty : sep ≠ []) (s front back : List α)
    (found : cut sep s = some (front, back)) :
    s = front ++ sep ++ back ∧ ¬sep <:+: front := by
  induction s generalizing front with
  | nil => cases found
  | cons c rest ih =>
      unfold cut at found
      by_cases here : sep <+: c :: rest
      · rw [if_pos here] at found
        obtain ⟨noFront, after⟩ := Prod.mk.inj (Option.some.inj found)
        rw [← noFront, ← after]
        exact ⟨(List.prefix_iff_eq_append.mp here).symm, by simpa using nonempty⟩
      · rw [if_neg here] at found
        obtain ⟨parts, later, same⟩ := Option.map_eq_some_iff.mp found
        obtain ⟨head, after⟩ := Prod.mk.inj same
        rw [← after, ← head]
        obtain ⟨whole, absent⟩ := ih parts.1 (by rw [later, ← after])
        rw [← after] at whole
        refine ⟨by rw [whole]; simp, ?_⟩
        intro inside
        rcases List.infix_cons_iff.mp inside with atHead | further
        · apply here
          rw [whole]
          simpa using atHead.trans (List.prefix_append (c :: parts.1) (sep ++ parts.2))
        · exact absent further

/-- A separator of two different items cannot straddle its own beginning. -/
theorem cut_pair (x y : α) (apart : x ≠ y) (front back : List α)
    (absent : ¬[x, y] <:+: front) : cut [x, y] (front ++ x :: y :: back) = some (front, back) := by
  induction front with
  | nil => simp [cut]
  | cons c front ih =>
      have notHere : ¬[x, y] <+: c :: (front ++ x :: y :: back) := by
        intro here
        obtain ⟨first, second⟩ := List.cons_prefix_cons.mp here
        cases front with
        | nil => exact apart (List.cons_prefix_cons.mp second).1.symm
        | cons d front =>
            have next := (List.cons_prefix_cons.mp second).1
            apply absent
            rw [first, next]
            exact ⟨[], front, by simp⟩
      have later : ¬[x, y] <:+: front :=
        fun inside => absent (inside.trans (List.infix_cons (List.infix_refl front)))
      rw [List.cons_append, cut, if_neg notHere, ih later]
      rfl

theorem cut_last_none_iff (nonempty : sep ≠ []) (s : List α) :
    cutLast sep s = none ↔ ¬sep <:+: s := by
  rw [cutLast, Option.map_eq_none_iff, cut_none_iff (by simpa using nonempty), List.reverse_infix]

theorem cut_last_some (nonempty : sep ≠ []) (s front back : List α)
    (found : cutLast sep s = some (front, back)) :
    s = front ++ sep ++ back ∧ ¬sep <:+: back := by
  obtain ⟨parts, turned, same⟩ := Option.map_eq_some_iff.mp found
  obtain ⟨whole, absent⟩ := cut_some (by simpa using nonempty) _ _ _ turned
  obtain ⟨before, after⟩ := Prod.mk.inj same
  rw [← before, ← after]
  constructor
  · have restored := congrArg List.reverse whole
    simpa using restored
  · rw [← List.reverse_infix, List.reverse_reverse]
    exact absent

theorem cut_last_pair (x y : α) (apart : x ≠ y) (front back : List α)
    (absent : ¬[x, y] <:+: back) :
    cutLast [x, y] (front ++ x :: y :: back) = some (front, back) := by
  have turned : ¬[y, x] <:+: back.reverse := by
    rw [← List.reverse_infix]
    simpa using absent
  have found := cut_pair y x apart.symm back.reverse front.reverse turned
  unfold cutLast
  have whole : (front ++ x :: y :: back).reverse = back.reverse ++ y :: x :: front.reverse := by
    simp
  rw [whole]
  change Option.map _ (cut [y, x] _) = _
  rw [found]
  simp

theorem cut_last_after (x y : α) (apart : x ≠ y) (front back : List α) :
    ∃ rest after, cutLast [x, y] (front ++ x :: y :: back) = some (front ++ rest, after) := by
  cases found : cutLast [x, y] (front ++ x :: y :: back) with
  | none =>
      have absent := (cut_last_none_iff (by simp) _).mp found
      exact absurd ⟨front, back, by simp⟩ absent
  | some parts =>
      obtain ⟨whole, absent⟩ := cut_last_some (by simp) _ parts.1 parts.2 found
      rw [List.append_assoc] at whole
      rcases List.append_eq_append_iff.mp whole with ⟨rest, same, _⟩ | ⟨rest, same, tail⟩
      · exact ⟨rest, parts.2, by rw [← same]⟩
      · cases rest with
        | nil => exact ⟨[], parts.2, by rw [same, List.append_nil, List.append_nil]⟩
        | cons first rest =>
            have behind := (List.cons.inj tail).2
            cases rest with
            | nil => exact absurd (List.cons.inj behind).1.symm apart
            | cons second rest =>
                have inside : parts.2 = rest ++ x :: y :: back := (List.cons.inj behind).2
                exact absurd ⟨rest, back, by rw [inside]; simp⟩ absent

omit [DecidableEq α] in
/-- An occurrence does not reach over an item it does not have. -/
theorem infix_append_cons (s : List α) {c : α} (absent : c ∉ s) (front back : List α) :
    s <:+: front ++ c :: back ↔ s <:+: front ∨ s <:+: back := by
  constructor
  · intro ⟨before, after, whole⟩
    rcases List.append_eq_append_iff.mp whole with ⟨rest, inFront, _⟩ | ⟨rest, reach, tail⟩
    · exact Or.inl ⟨before, rest, inFront.symm⟩
    · cases rest with
      | nil => exact Or.inl ⟨before, [], by rw [reach, List.append_nil, List.append_nil]⟩
      | cons first rest =>
          obtain ⟨here, behind⟩ := List.cons.inj tail
          rw [← here] at reach
          rcases List.append_eq_append_iff.mp reach with ⟨part, _, across⟩ | ⟨part, _, across⟩
          · exact absurd (by rw [across]; simp) absent
          · cases part with
            | nil => exact absurd (by rw [← List.nil_append s, ← across]; simp) absent
            | cons second part =>
                have inBack : rest = part ++ s := (List.cons.inj across).2
                exact Or.inr ⟨part, after, by rw [← inBack]; exact behind.symm⟩
  · intro occurs
    rcases occurs with inFront | inBack
    · exact inFront.trans (List.prefix_append front (c :: back)).isInfix
    · exact inBack.trans ((List.suffix_cons c back).isInfix.trans
        (List.suffix_append front (c :: back)).isInfix)

omit [DecidableEq α] in
theorem append_cons_eq_iff {c : α} (first second : List α) (firstFree : c ∉ first)
    (secondFree : c ∉ second) (left right : List α) :
    first ++ c :: left = second ++ c :: right ↔ first = second ∧ left = right := by
  induction first generalizing second with
  | nil =>
      cases second with
      | nil => simp
      | cons head second =>
          have other : c ≠ head := fun same => secondFree (same ▸ List.mem_cons_self)
          simp [other]
  | cons item first ih =>
      rw [List.mem_cons, not_or] at firstFree
      cases second with
      | nil => simp [firstFree.1, eq_comm]
      | cons head second =>
          rw [List.mem_cons, not_or] at secondFree
          rw [List.cons_append, List.cons_append, List.cons.injEq,
            ih second firstFree.2 secondFree.2, List.cons.injEq, and_assoc]

omit [DecidableEq α] in
theorem pair_infix_append {x y : α} (front back : List α) (absent : x ∉ front) :
    [x, y] <:+: front ++ back ↔ [x, y] <:+: back := by
  induction front with
  | nil => rfl
  | cons head front ih =>
      rw [List.mem_cons, not_or] at absent
      rw [List.cons_append, List.infix_cons_iff, List.cons_prefix_cons, ih absent.2]
      simp [absent.1]

omit [DecidableEq α] in
theorem pair_not_infix {x y : α} (s : List α) (absent : x ∉ s) : ¬[x, y] <:+: s :=
  fun occurs => absent (occurs.subset List.mem_cons_self)

def strip (item : α) (s : List α) : List α :=
  (s.dropWhile (· = item)).rdropWhile (· = item)

theorem strip_append_self {item : α} (s : List α) (absent : item ∉ s) :
    strip item (s ++ [item]) = s := by
  unfold strip
  have front : (s ++ [item]).dropWhile (· = item) = s ++ [item] ∨
      (s = [] ∧ (s ++ [item]).dropWhile (· = item) = []) := by
    cases s with
    | nil => simp
    | cons head s =>
        rw [List.mem_cons, not_or] at absent
        have other : ¬head = item := fun same => absent.1 same.symm
        simp [other]
  have atEnd : (s ++ [item]).rdropWhile (· = item) = s := by
    rw [List.rdropWhile_concat_pos _ _ _ (by simp)]
    apply List.rdropWhile_eq_self_iff.mpr
    intro nonempty
    have member := List.getLast_mem nonempty
    simp only [decide_eq_true_eq]
    intro same
    rw [same] at member
    exact absent member
  rcases front with kept | ⟨none, gone⟩
  · rw [kept]
    exact atEnd
  · rw [gone, none]
    rfl

theorem strip_cons_self {item : α} (s : List α) (absent : item ∉ s) :
    strip item (item :: s) = s := by
  have front : (item :: s).dropWhile (· = item) = s := by
    rw [List.dropWhile_cons_of_pos (by simp)]
    cases s with
    | nil => rfl
    | cons head s =>
        rw [List.mem_cons, not_or] at absent
        exact List.dropWhile_cons_of_neg (by simpa using fun same => absent.1 same.symm)
  unfold strip
  rw [front]
  apply List.rdropWhile_eq_self_iff.mpr
  intro nonempty
  have member := List.getLast_mem nonempty
  simp only [decide_eq_true_eq]
  intro same
  rw [same] at member
  exact absent member

theorem length_splitOn (c : α) (s : List α) : (s.splitOn c).length = s.count c + 1 := by
  induction s with
  | nil => rfl
  | cons head s ih =>
      rw [List.splitOn_cons_eq_if_modifyHead, List.count_cons]
      split_ifs with same
      · rw [List.length_cons, ih]
      · rw [List.length_modifyHead, ih]

theorem splitOn_append (c : α) (front back : List α) (absent : c ∉ front) :
    (front ++ back).splitOn c = (back.splitOn c).modifyHead (front ++ ·) := by
  induction front with
  | nil =>
      obtain ⟨part, parts, pieces⟩ := List.exists_cons_of_ne_nil (List.splitOn_ne_nil c back)
      rw [List.nil_append, pieces]
      rfl
  | cons head front ih =>
      rw [List.mem_cons, not_or] at absent
      have other : ¬(head == c) = true := by
        simpa using fun same => absent.1 same.symm
      rw [List.cons_append, List.splitOn_cons_eq_if_modifyHead, if_neg other, ih absent.2,
        List.modifyHead_modifyHead]
      rfl

theorem splitOn_joined (c : α) (parts : List (List α)) (nonempty : parts ≠ []) :
    ([c].intercalate parts).splitOn c = parts.flatMap fun part => part.splitOn c := by
  induction parts with
  | nil => exact absurd rfl nonempty
  | cons part rest ih =>
      cases rest with
      | nil => simp
      | cons next rest =>
          rw [List.intercalate_cons_cons, List.append_assoc, List.singleton_append,
            List.splitOn_append_cons_self, ih (by simp)]
          rfl

theorem splitOn_sublist (c : α) (s part : List α) (member : part ∈ s.splitOn c) :
    part.Sublist s := by
  have joined : ∀ parts : List (List α), part ∈ parts → part.Sublist ([c].intercalate parts) := by
    intro parts
    induction parts with
    | nil => exact fun none => absurd none List.not_mem_nil
    | cons first rest ih =>
        intro inside
        cases rest with
        | nil =>
            rw [List.mem_singleton.mp inside]
            simp
        | cons second rest =>
            rw [List.intercalate_cons_cons]
            rcases List.mem_cons.mp inside with here | later
            · rw [here, List.append_assoc]
              exact List.sublist_append_left first _
            · exact (ih later).trans (List.sublist_append_right _ _)
  have whole := joined (s.splitOn c) member
  rwa [List.intercalate_splitOn] at whole

/-- Texts that each end in the separator, and what is left after them. -/
theorem splitOn_terminated (c : α) (texts : List (List α)) (free : ∀ text ∈ texts, c ∉ text) :
    (texts.flatMap fun text => text ++ [c]).splitOn c = texts ++ [[]] := by
  induction texts with
  | nil => rfl
  | cons text rest ih =>
      have later := ih fun other member => free other (List.mem_cons_of_mem text member)
      rw [List.flatMap_cons, List.append_assoc, List.singleton_append,
        List.splitOn_append_cons_self_of_not_mem (free text List.mem_cons_self), later]
      rfl

omit [DecidableEq α] in
theorem pair_infix_joined {x y c : α} (first : c ≠ x) (second : c ≠ y) (parts : List (List α)) :
    [x, y] <:+: [c].intercalate parts ↔ ∃ part ∈ parts, [x, y] <:+: part := by
  induction parts with
  | nil => simp
  | cons part rest ih =>
      cases rest with
      | nil => simp
      | cons next rest =>
          rw [List.intercalate_cons_cons, List.append_assoc, List.singleton_append,
            infix_append_cons _ (by simp [first, second]), ih]
          simp

end Separators

section Repeated

variable {α : Type*} [DecidableEq α] (c : α)

/-- Each run of `c` becomes one `c`. -/
def squeeze (s : List α) : List α := s.destutter fun first second => ¬(first = c ∧ second = c)

theorem squeeze_cons_cons_self (s : List α) : squeeze c (c :: c :: s) = squeeze c (c :: s) := by
  unfold squeeze
  rw [List.destutter_cons_cons, if_neg fun apart => apart ⟨rfl, rfl⟩, List.destutter_cons']

theorem head?_squeeze (s : List α) : (squeeze c s).head? = s.head? := by
  have kept : ∀ (first : α) (rest : List α), (rest.destutter' (fun first second =>
      ¬(first = c ∧ second = c)) first).head? = some first := by
    intro first rest
    induction rest with
    | nil => rfl
    | cons next rest ih =>
        rw [List.destutter'_cons]
        split_ifs
        · exact ih
        · rfl
  cases s with
  | nil => rfl
  | cons first rest => exact kept first rest

theorem filter_squeeze (s : List α) : (squeeze c s).filter (· ≠ c) = s.filter (· ≠ c) := by
  have kept : ∀ (first : α) (rest : List α), (rest.destutter' (fun first second =>
      ¬(first = c ∧ second = c)) first).filter (· ≠ c) = (first :: rest).filter (· ≠ c) := by
    intro first rest
    induction rest generalizing first with
    | nil => rfl
    | cons next rest ih =>
        rw [List.destutter'_cons]
        split_ifs with both
        · rw [ih first, both.1, both.2]
          simp
        · rw [List.filter_cons, List.filter_cons, ih next]
  cases s with
  | nil => rfl
  | cons first rest => exact kept first rest

end Repeated

/-- The characters a text is split at where no separator is given: Unicode
white space and the four separator controls. -/
def isSpace (c : Char) : Bool :=
  let code := c.toNat
  (9 ≤ code && code ≤ 13) || (28 ≤ code && code ≤ 32) || code == 0x85 || code == 0xa0 ||
    code == 0x1680 || (0x2000 ≤ code && code ≤ 0x200a) || code == 0x2028 || code == 0x2029 ||
    code == 0x202f || code == 0x205f || code == 0x3000

section Words

variable {α : Type*} {blank : α → Bool}

/-- An empty part disappears in the words. -/
def words (blank : α → Bool) (s : List α) : List (List α) :=
  (s.splitOnP blank).filter fun word => !word.isEmpty

theorem words_solid (s : List α) (solid : ∀ c ∈ s, blank c = false) (nonempty : s ≠ []) :
    words blank s = [s] := by
  rw [words, List.splitOnP_eq_singleton solid]
  simp [nonempty]

theorem words_append (front back : List α) {c : α} (isBlank : blank c = true) :
    words blank (front ++ c :: back) = words blank front ++ words blank back := by
  rw [words, List.splitOnP_append_cons front back isBlank, List.filter_append]
  rfl

theorem words_cons (s : List α) {c : α} (isBlank : blank c = true) :
    words blank (c :: s) = words blank s :=
  words_append [] s isBlank

theorem words_blanks (count : Nat) (s : List α) {c : α} (isBlank : blank c = true) :
    words blank (List.replicate count c ++ s) = words blank s := by
  induction count with
  | zero => rfl
  | succ count ih =>
      rw [List.replicate_succ, List.cons_append, words_cons _ isBlank]
      exact ih

theorem words_ne_nil (s : List α) {c : α} (member : c ∈ s) (solid : blank c = false) :
    words blank s ≠ [] := by
  induction s with
  | nil => exact absurd member List.not_mem_nil
  | cons head s ih =>
      by_cases isBlank : blank head = true
      · rw [words_cons s isBlank]
        rcases List.mem_cons.mp member with same | later
        · rw [same, isBlank] at solid
          cases solid
        · exact ih later
      · have first : (head :: s).splitOnP blank = (s.splitOnP blank).modifyHead (List.cons head) := by
          rw [List.splitOnP_cons_eq_if_modifyHead, if_neg isBlank]
        obtain ⟨part, parts, pieces⟩ := List.exists_cons_of_ne_nil (List.splitOnP_ne_nil blank s)
        rw [words, first, pieces]
        simp

theorem mem_words_solid (s : List α) (word : List α) (member : word ∈ words blank s) :
    ∀ c ∈ word, blank c = false := by
  have parts : ∀ (s : List α), ∀ part ∈ s.splitOnP blank, ∀ c ∈ part, blank c = false := by
    intro s
    induction s with
    | nil =>
        intro part inParts c inPart
        rw [List.splitOnP_nil, List.mem_singleton] at inParts
        rw [inParts] at inPart
        exact absurd inPart List.not_mem_nil
    | cons head s ih =>
        intro part inParts c inPart
        rw [List.splitOnP_cons_eq_if_modifyHead] at inParts
        by_cases isBlank : blank head = true
        · rw [if_pos isBlank] at inParts
          rcases List.mem_cons.mp inParts with empty | later
          · rw [empty] at inPart
            exact absurd inPart List.not_mem_nil
          · exact ih part later c inPart
        · rw [if_neg isBlank] at inParts
          obtain ⟨first, rest, pieces⟩ :=
            List.exists_cons_of_ne_nil (List.splitOnP_ne_nil blank s)
          rw [pieces] at inParts ih
          rcases List.mem_cons.mp inParts with here | later
          · rw [here] at inPart
            rcases List.mem_cons.mp inPart with same | further
            · rw [same]
              simpa using isBlank
            · exact ih first List.mem_cons_self c further
          · exact ih part (List.mem_cons_of_mem first later) c inPart
  exact parts s word (List.mem_filter.mp member).1

theorem split_joined_words [DecidableEq α] (s : List α) {c : α} (isBlank : blank c = true)
    (nonempty : words blank s ≠ []) : ([c].intercalate (words blank s)).splitOn c = words blank s := by
  apply List.splitOn_intercalate c _ nonempty
  intro word member inside
  have solid := mem_words_solid s word member c inside
  rw [isBlank] at solid
  cases solid

/-- A text that ends in a word is one word exactly when nothing after its
leading blanks is blank. -/
theorem words_one_iff (front back : List α) (solid : ∀ c ∈ back, blank c = false)
    (nonempty : back ≠ []) :
    (∃ word, words blank (front ++ back) = [word]) ↔
      ∀ c ∈ front.dropWhile blank, blank c = false := by
  induction front with
  | nil =>
      rw [List.nil_append, words_solid back solid nonempty]
      simp
  | cons head front ih =>
      by_cases isBlank : blank head = true
      · rw [List.cons_append, words_cons _ isBlank, List.dropWhile_cons_of_pos isBlank]
        exact ih
      · rw [List.dropWhile_cons_of_neg isBlank]
        constructor
        · intro one c member
          by_contra isBlankToo
          have blankToo : blank c = true := by simpa using isBlankToo
          rcases List.mem_cons.mp member with same | later
          · rw [same] at blankToo
            exact isBlank blankToo
          · obtain ⟨before, after, split⟩ := List.append_of_mem later
            obtain ⟨word, only⟩ := one
            have parts : head :: front ++ back = (head :: before) ++ c :: (after ++ back) := by
              rw [split]
              simp
            rw [parts, words_append _ _ blankToo] at only
            obtain ⟨last, member⟩ := List.exists_mem_of_ne_nil back nonempty
            have first := words_ne_nil (head :: before) List.mem_cons_self
              (by simpa using isBlank)
            have second := words_ne_nil (after ++ back) (List.mem_append_right after member)
              (solid last member)
            have lengths := congrArg List.length only
            rw [List.length_append, List.length_singleton] at lengths
            have firstLength := List.length_pos_of_ne_nil first
            have secondLength := List.length_pos_of_ne_nil second
            omega
        · intro allSolid
          have whole : ∀ c ∈ head :: front ++ back, blank c = false := by
            intro c member
            rcases List.mem_append.mp member with inFront | inBack
            · exact allSolid c inFront
            · exact solid c inBack
          exact ⟨head :: front ++ back, words_solid _ whole (by simp)⟩

end Words

section Numerals

def natOf (s : List Char) : Option Nat :=
  if s ≠ [] ∧ s.all Char.isDigit then some (Nat.ofDigitChars 10 s 0) else none

/-- A decimal numeral with a minus sign or none. -/
def intOf : List Char → Option Int
  | '-' :: s => (natOf s).map fun n : Nat => (-n : Int)
  | s => (natOf s).map fun n : Nat => (n : Int)

def decimal (n : Int) : List Char :=
  if n < 0 then '-' :: Nat.toDigits 10 n.natAbs else Nat.toDigits 10 n.natAbs

theorem digits_are_digits (n : Nat) (c : Char) (member : c ∈ Nat.toDigits 10 n) :
    c.isDigit = true :=
  Nat.isDigit_of_mem_toDigits (by decide) (by decide) member

theorem natOf_zeros_digits (zeros n : Nat) :
    natOf (List.replicate zeros '0' ++ Nat.toDigits 10 n) = some n := by
  unfold natOf
  have nonempty : List.replicate zeros '0' ++ Nat.toDigits 10 n ≠ [] := by
    intro empty
    have length := congrArg List.length empty
    have positive := Nat.length_toDigits_pos (b := 10) (n := n)
    rw [List.length_append, List.length_nil] at length
    omega
  have digits : (List.replicate zeros '0' ++ Nat.toDigits 10 n).all Char.isDigit = true := by
    rw [List.all_eq_true]
    intro c member
    rcases List.mem_append.mp member with zero | digit
    · rw [List.eq_of_mem_replicate zero]
      decide
    · exact digits_are_digits n c digit
  rw [if_pos ⟨nonempty, digits⟩, Nat.ofDigitChars_append, Nat.ofDigitChars_replicate_zero]
  simp

theorem natOf_digits (n : Nat) : natOf (Nat.toDigits 10 n) = some n :=
  natOf_zeros_digits 0 n

theorem intOf_decimal (n : Int) : intOf (decimal n) = some n := by
  unfold decimal
  by_cases negative : n < 0
  · rw [if_pos negative, intOf, natOf_digits, Option.map_some]
    congr 1
    omega
  · rw [if_neg negative]
    have noSign : ∀ s, Nat.toDigits 10 n.natAbs ≠ '-' :: s := by
      intro s same
      have digit := digits_are_digits n.natAbs '-' (by rw [same]; exact List.mem_cons_self)
      exact absurd digit (by decide)
    rw [intOf.eq_2 _ noSign, natOf_digits, Option.map_some]
    congr 1
    omega

theorem decimal_injective : Function.Injective decimal := by
  intro m n same
  have read := congrArg intOf same
  rw [intOf_decimal, intOf_decimal] at read
  exact Option.some.inj read

theorem decimal_ne_nil (n : Int) : decimal n ≠ [] := by
  have some := Nat.length_toDigits_pos (b := 10) (n := n.natAbs)
  unfold decimal
  split_ifs
  · exact List.cons_ne_nil _ _
  · exact List.ne_nil_of_length_pos some

theorem mem_decimal (n : Int) (c : Char) (member : c ∈ decimal n) :
    c = '-' ∨ c.isDigit = true := by
  unfold decimal at member
  split_ifs at member with negative
  · rcases List.mem_cons.mp member with sign | digit
    · exact Or.inl sign
    · exact Or.inr (digits_are_digits _ c digit)
  · exact Or.inr (digits_are_digits _ c member)

theorem natOf_decimal (n : Int) : natOf (decimal n) = if n < 0 then none else some n.toNat := by
  unfold decimal
  split_ifs with negative
  · unfold natOf
    rw [if_neg]
    intro all
    have sign := List.all_eq_true.mp all.2 '-' List.mem_cons_self
    exact absurd sign (by decide)
  · rw [natOf_digits]
    congr 1
    omega

end Numerals

end WPerf.Library.Text
