import Mathlib.Data.List.Pairwise
import Mathlib.Order.Lattice
import WPerf.Library.ColoredTree

/-!
# Search trees

The way down to a key in a tree that is sorted from left to right, the items
next to the end of a path, and a cursor that moves through a tree from left to
right. `Parts` is the invariant of the way down: what was passed on the left
is below the key and what was passed on the right is above it.
-/

namespace WPerf.Library.ColoredTree

set_option autoImplicit false

variable {Item Key : Type}

/-- The item of the closest node on the path whose `side` was taken. -/
def nearest (side : Side) (path : Path Item) : Option Item :=
  (path.find? fun frame => frame.side = side).map Frame.item

theorem before_getLast (path : Path Item) : (before path).getLast? = nearest .right path := by
  induction path with
  | nil => rfl
  | cons frame outer ih =>
      cases side : frame.side with
      | left => simpa [before, nearest, side] using ih
      | right => simp [before, nearest, side, List.getLast?_append]

theorem after_head (path : Path Item) : (after path).head? = nearest .left path := by
  induction path with
  | nil => rfl
  | cons frame outer ih =>
      cases side : frame.side with
      | left => simp [after, nearest, side]
      | right => simpa [after, nearest, side] using ih

theorem item_mem_zip (path : Path Item) (tree : ColoredTree Item) (frame : Frame Item)
    (member : frame ∈ path) : frame.item ∈ (zip path tree).inorder := by
  induction path generalizing tree with
  | nil => cases member
  | cons top outer ih =>
      rw [zip_cons]
      rcases List.mem_cons.mp member with rfl | above
      · rw [inorder_zip, fill_eq_join]
        cases frame.side <;> simp [join]
      · exact ih _ above

section Search

variable [LinearOrder Key] (key : Item → Key)

/-- The way down to the node of `target`, or to the leaf where it would be. -/
def search (target : Key) : Path Item → ColoredTree Item → Path Item × ColoredTree Item
  | path, .leaf => (path, .leaf)
  | path, .node color left item right =>
      if target = key item then (path, .node color left item right)
      else if target < key item then search target (⟨.left, color, item, right⟩ :: path) left
      else search target (⟨.right, color, item, left⟩ :: path) right

def Sorted (tree : ColoredTree Item) : Prop :=
  tree.inorder.Pairwise fun first second => key first < key second

/-- The key at the end of the path separates what lies on its two sides. -/
structure Parts (target : Key) (path : Path Item) : Prop where
  below : ∀ item ∈ before path, key item < target
  above : ∀ item ∈ after path, target < key item

theorem parts_top (target : Key) : Parts key target ([] : Path Item) :=
  ⟨fun _ member => absurd member List.not_mem_nil, fun _ member => absurd member List.not_mem_nil⟩

variable {key}

theorem Sorted.node_parts {path : Path Item} {color : Color} {left right : ColoredTree Item}
    {item : Item} (sorted : Sorted key (zip path (.node color left item right))) :
    (∀ other ∈ left.inorder, key other < key item) ∧
      ∀ other ∈ right.inorder, key item < key other := by
  rw [Sorted, inorder_zip, inorder_node] at sorted
  have inner := (List.pairwise_append.mp (List.pairwise_append.mp sorted).1).2.1
  have apart := List.pairwise_append.mp inner
  exact ⟨fun other member => apart.2.2 other member item List.mem_cons_self,
    (List.pairwise_cons.mp apart.2.1).1⟩

theorem Parts.left {target : Key} {path : Path Item} (parts : Parts key target path)
    {color : Color} {left right : ColoredTree Item} {item : Item}
    (sorted : Sorted key (zip path (.node color left item right))) (less : target < key item) :
    Parts key target (⟨.left, color, item, right⟩ :: path) := by
  refine ⟨by simpa [before] using parts.below, ?_⟩
  intro other member
  simp only [after, List.cons_append, List.mem_cons, List.mem_append] at member
  rcases member with rfl | inRight | outside
  · exact less
  · exact less.trans (sorted.node_parts.2 other inRight)
  · exact parts.above other outside

theorem Parts.right {target : Key} {path : Path Item} (parts : Parts key target path)
    {color : Color} {left right : ColoredTree Item} {item : Item}
    (sorted : Sorted key (zip path (.node color left item right))) (greater : key item < target) :
    Parts key target (⟨.right, color, item, left⟩ :: path) := by
  refine ⟨?_, by simpa [after] using parts.above⟩
  intro other member
  simp only [before, List.mem_append, List.mem_singleton] at member
  rcases member with outside | inLeft | rfl
  · exact parts.below other outside
  · exact (sorted.node_parts.1 other inLeft).trans greater
  · exact greater

variable (key)

theorem zip_search (target : Key) (path : Path Item) (tree : ColoredTree Item) :
    zip (search key target path tree).1 (search key target path tree).2 = zip path tree := by
  induction path, tree using search.induct key target with
  | case1 path => rfl
  | case2 path color left item right same => rw [search, if_pos same]
  | case3 path color left item right differs less ih =>
      rw [search, if_neg differs, if_pos less, ih]
      rfl
  | case4 path color left item right differs notLess ih =>
      rw [search, if_neg differs, if_neg notLess, ih]
      rfl

theorem search_focus (target : Key) (path : Path Item) (tree : ColoredTree Item) :
    (search key target path tree).2 = .leaf ∨
      ∃ color left item right,
        (search key target path tree).2 = .node color left item right ∧ key item = target := by
  induction path, tree using search.induct key target with
  | case1 path => exact Or.inl rfl
  | case2 path color left item right same =>
      rw [search, if_pos same]
      exact Or.inr ⟨color, left, item, right, rfl, same.symm⟩
  | case3 path color left item right differs less ih =>
      rw [search, if_neg differs, if_pos less]
      exact ih
  | case4 path color left item right differs notLess ih =>
      rw [search, if_neg differs, if_neg notLess]
      exact ih

theorem search_parts (target : Key) (path : Path Item) (tree : ColoredTree Item)
    (sorted : Sorted key (zip path tree)) (parts : Parts key target path) :
    Parts key target (search key target path tree).1 := by
  induction path, tree using search.induct key target with
  | case1 path => exact parts
  | case2 path color left item right same =>
      rw [search, if_pos same]
      exact parts
  | case3 path color left item right differs less ih =>
      rw [search, if_neg differs, if_pos less]
      exact ih sorted (parts.left sorted less)
  | case4 path color left item right differs notLess ih =>
      rw [search, if_neg differs, if_neg notLess]
      exact ih sorted (parts.right sorted (lt_of_le_of_ne (not_lt.mp notLess) (Ne.symm differs)))

theorem search_depth (target : Key) (path : Path Item) (tree : ColoredTree Item) :
    (search key target path tree).1.length + (search key target path tree).2.height ≤
      path.length + tree.height := by
  induction path, tree using search.induct key target with
  | case1 path => exact le_refl _
  | case2 path color left item right same => rw [search, if_pos same]
  | case3 path color left item right differs less ih =>
      rw [search, if_neg differs, if_pos less]
      refine ih.trans ?_
      simp only [List.length_cons, height]
      omega
  | case4 path color left item right differs notLess ih =>
      rw [search, if_neg differs, if_neg notLess]
      refine ih.trans ?_
      simp only [List.length_cons, height]
      omega

/-- Along the search the path stays open for the subtree at its end. -/
theorem search_open (target : Key) {n : Nat} {path : Path Item} {tree : ColoredTree Item}
    (isOpen : Open n path) (balanced : Balanced n tree) (admitted : Admits path tree.color) :
    ∃ m, Open m (search key target path tree).1 ∧ Balanced m (search key target path tree).2 ∧
      Admits (search key target path tree).1 (search key target path tree).2.color := by
  induction path, tree using search.induct key target generalizing n with
  | case1 path => exact ⟨n, isOpen, balanced, admitted⟩
  | case2 path color left item right same =>
      rw [search, if_pos same]
      exact ⟨n, isOpen, balanced, admitted⟩
  | case3 path color left item right differs less ih =>
      rw [search, if_neg differs, if_pos less]
      obtain ⟨m, innerOpen, leftBalanced, leftAdmitted⟩ :=
        isOpen.child .left balanced admitted
      exact ih innerOpen leftBalanced leftAdmitted
  | case4 path color left item right differs notLess ih =>
      rw [search, if_neg differs, if_neg notLess]
      obtain ⟨m, innerOpen, rightBalanced, rightAdmitted⟩ :=
        isOpen.child .right balanced admitted
      exact ih innerOpen rightBalanced rightAdmitted

def insertWith (target : Key) (place : Option Item → Item) (tree : ColoredTree Item) :
    ColoredTree Item :=
  match search key target [] tree with
  | (path, .leaf) => repair path (.node .red .leaf (place none) .leaf)
  | (path, .node color left item right) => zip path (.node color left (place (some item)) right)

theorem insert_with_balanced (target : Key) (place : Option Item → Item) {n : Nat}
    {tree : ColoredTree Item} (balanced : Balanced n tree) (isBlack : tree.color = .black) :
    ∃ m, Balanced m (insertWith key target place tree) ∧
      (insertWith key target place tree).color = .black := by
  have admitted : Admits ([] : Path Item) tree.color := by
    rw [isBlack]
    exact admits_black _
  obtain ⟨m, isOpen, focusBalanced, focusAdmitted⟩ :=
    search_open key target (.top n) balanced admitted
  unfold insertWith
  split
  case h_1 path ended =>
    rw [ended] at isOpen focusBalanced
    cases focusBalanced
    exact repair_balanced isOpen (.red _ .leaf rfl .leaf rfl) rfl
  case h_2 path color left item right ended =>
    rw [ended] at isOpen focusBalanced focusAdmitted
    exact isOpen.balanced_zip (focusBalanced.replace _) focusAdmitted

/-- The items after an insertion are those before it, with the placed item
between the smaller and the greater ones. -/
theorem insert_with_inorder (target : Key) (place : Option Item → Item)
    {tree : ColoredTree Item} (sorted : Sorted key tree) :
    ∃ lower upper, (∀ item ∈ lower, key item < target) ∧ (∀ item ∈ upper, target < key item) ∧
      ((tree.inorder = lower ++ upper ∧
          (insertWith key target place tree).inorder = lower ++ place none :: upper) ∨
        ∃ old, key old = target ∧ tree.inorder = lower ++ old :: upper ∧
          (insertWith key target place tree).inorder = lower ++ place (some old) :: upper) := by
  have parts := search_parts key target [] tree sorted (parts_top key target)
  have whole := zip_search key target [] tree
  have found := search_focus key target [] tree
  unfold insertWith
  split
  case h_1 path ended =>
    rw [ended] at parts whole
    refine ⟨before path, after path, parts.below, parts.above, Or.inl ⟨?_, ?_⟩⟩
    · rw [← zip_nil tree, ← whole, inorder_zip]
      simp
    · rw [inorder_repair, inorder_zip]
      simp
  case h_2 path color left item right ended =>
    rw [ended] at parts whole found
    have same : key item = target := by
      rcases found with impossible | ⟨_, _, _, _, focus, same⟩
      · cases impossible
      · cases focus
        exact same
    have sortedWhole : Sorted key (zip path (.node color left item right)) := by
      rw [whole]
      exact sorted
    have nodeParts := sortedWhole.node_parts
    rw [same] at nodeParts
    refine ⟨before path ++ left.inorder, right.inorder ++ after path, ?_, ?_,
      Or.inr ⟨item, same, ?_, ?_⟩⟩
    · intro other member
      rcases List.mem_append.mp member with outer | inner
      · exact parts.below other outer
      · exact nodeParts.1 other inner
    · intro other member
      rcases List.mem_append.mp member with inner | outer
      · exact nodeParts.2 other inner
      · exact parts.above other outer
    · rw [← zip_nil tree, ← whole, inorder_zip]
      simp
    · rw [inorder_zip]
      simp

end Search

structure Cursor (Item : Type) where
  path : Path Item
  color : Color
  left : ColoredTree Item
  item : Item
  right : ColoredTree Item

namespace Cursor

def focus (cursor : Cursor Item) : ColoredTree Item :=
  .node cursor.color cursor.left cursor.item cursor.right

def whole (cursor : Cursor Item) : ColoredTree Item := zip cursor.path cursor.focus

def passed (cursor : Cursor Item) : List Item := before cursor.path ++ cursor.left.inorder

def remaining (cursor : Cursor Item) : List Item := cursor.right.inorder ++ after cursor.path

def ahead : Option (Cursor Item) → List Item
  | none => []
  | some cursor => cursor.item :: cursor.remaining

theorem inorder_whole (cursor : Cursor Item) :
    cursor.whole.inorder = cursor.passed ++ cursor.item :: cursor.remaining := by
  simp [whole, inorder_zip, focus, passed, remaining]

def first : Path Item → ColoredTree Item → Option (Cursor Item)
  | _, .leaf => none
  | path, .node color left item right =>
      some ((first (⟨.left, color, item, right⟩ :: path) left).getD
        ⟨path, color, left, item, right⟩)

/-- The closest node above that was left to the left, seen from `tree`. -/
def climb : Path Item → ColoredTree Item → Option (Cursor Item)
  | [], _ => none
  | ⟨.left, color, item, other⟩ :: outer, tree => some ⟨outer, color, tree, item, other⟩
  | ⟨.right, color, item, other⟩ :: outer, tree => climb outer (.node color other item tree)

def next (cursor : Cursor Item) : Option (Cursor Item) :=
  match cursor.right with
  | .leaf => climb cursor.path cursor.focus
  | .node .. => first (⟨.right, cursor.color, cursor.item, cursor.left⟩ :: cursor.path) cursor.right

theorem first_eq_none_iff (path : Path Item) (tree : ColoredTree Item) :
    first path tree = none ↔ tree = .leaf := by
  cases tree <;> simp [first]

theorem first_spec (path : Path Item) (tree : ColoredTree Item) (cursor : Cursor Item)
    (found : first path tree = some cursor) :
    cursor.whole = zip path tree ∧ cursor.passed = before path := by
  induction tree generalizing path with
  | leaf => cases found
  | node color left item right ih _ =>
      rw [first, Option.some.injEq] at found
      cases lower : first (⟨.left, color, item, right⟩ :: path) left with
      | none =>
          rw [lower, Option.getD_none] at found
          have isLeaf := (first_eq_none_iff _ _).mp lower
          subst found isLeaf
          exact ⟨rfl, List.append_nil _⟩
      | some inner =>
          rw [lower, Option.getD_some] at found
          have spec := ih _ (found ▸ lower)
          refine ⟨spec.1, ?_⟩
          rw [spec.2, before]
          exact List.append_nil _

theorem climb_spec (path : Path Item) (tree : ColoredTree Item) (cursor : Cursor Item)
    (found : climb path tree = some cursor) :
    cursor.whole = zip path tree ∧ cursor.passed = before path ++ tree.inorder := by
  induction path, tree using climb.induct with
  | case1 tree => cases found
  | case2 color item other outer tree =>
      rw [climb, Option.some.injEq] at found
      subst found
      exact ⟨rfl, by simp [passed, before]⟩
  | case3 color item other outer tree ih =>
      rw [climb] at found
      refine ⟨(ih found).1, ?_⟩
      rw [(ih found).2]
      simp [before]

theorem climb_eq_none (path : Path Item) (tree : ColoredTree Item)
    (ended : climb path tree = none) : after path = [] := by
  induction path, tree using climb.induct with
  | case1 tree => rfl
  | case2 color item other outer tree => cases ended
  | case3 color item other outer tree ih => simpa [after] using ih ended

theorem next_spec (cursor other : Cursor Item) (moved : cursor.next = some other) :
    other.whole = cursor.whole ∧ other.passed = cursor.passed ++ [cursor.item] := by
  obtain ⟨path, color, left, item, right⟩ := cursor
  cases right with
  | leaf =>
      have spec := climb_spec _ _ _ moved
      refine ⟨spec.1, ?_⟩
      rw [spec.2]
      simp [passed, focus]
  | node innerColor innerLeft innerItem innerRight =>
      have spec := first_spec _ _ _ moved
      refine ⟨spec.1, ?_⟩
      rw [spec.2]
      simp [passed, before]

theorem next_eq_none (cursor : Cursor Item) (ended : cursor.next = none) :
    cursor.remaining = [] := by
  obtain ⟨path, color, left, item, right⟩ := cursor
  cases right with
  | leaf => exact climb_eq_none _ _ ended
  | node innerColor innerLeft innerItem innerRight =>
      cases (first_eq_none_iff _ _).mp ended

theorem remaining_next (cursor : Cursor Item) : cursor.remaining = ahead cursor.next := by
  cases moved : cursor.next with
  | none => exact next_eq_none cursor moved
  | some other =>
      have spec := next_spec cursor other moved
      have same : other.passed ++ other.item :: other.remaining =
          cursor.passed ++ cursor.item :: cursor.remaining := by
        rw [← inorder_whole, ← inorder_whole, spec.1]
      rw [spec.2, List.append_assoc, List.singleton_append] at same
      exact (List.cons.inj (List.append_cancel_left same)).2.symm

theorem inorder_first (tree : ColoredTree Item) : tree.inorder = ahead (first [] tree) := by
  cases found : first [] tree with
  | none =>
      rw [(first_eq_none_iff _ _).mp found]
      rfl
  | some cursor =>
      have spec := first_spec _ _ _ found
      rw [← zip_nil tree, ← spec.1, inorder_whole, spec.2]
      rfl

end Cursor

end WPerf.Library.ColoredTree
