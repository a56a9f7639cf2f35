import Mathlib.Algebra.Order.Ring.Nat
import Mathlib.Data.Nat.Log
import Mathlib.Data.List.Basic

/-!
# Coloured binary trees

Trees whose nodes are red or black, and the paths that lead from a root to a
subtree. A path holds what was passed on the way, innermost first, so a path
and a subtree make up the whole tree. `Balanced` is the red-black condition
with the black height it fixes, `Open` says what a path asks of the subtree at
its end, and `repair` makes a tree balanced again after a red node was put
where a black leaf was.
-/

namespace WPerf.Library

set_option autoImplicit false

namespace ColoredTree

inductive Color where
  | red
  | black
deriving DecidableEq, Repr

inductive Side where
  | left
  | right
deriving DecidableEq, Repr

def Side.other : Side → Side
  | .left => .right
  | .right => .left

theorem Side.eq_other_of_ne {first second : Side} (different : first ≠ second) :
    first = second.other := by
  cases first <;> cases second <;> first | rfl | exact absurd rfl different

end ColoredTree

inductive ColoredTree (Item : Type) where
  | leaf
  | node (color : ColoredTree.Color) (left : ColoredTree Item) (item : Item) (right : ColoredTree Item)
deriving DecidableEq, Repr

namespace ColoredTree

variable {Item : Type}

def color : ColoredTree Item → Color
  | .leaf => .black
  | .node color _ _ _ => color

def paint (color : Color) : ColoredTree Item → ColoredTree Item
  | .leaf => .leaf
  | .node _ left item right => .node color left item right

def join (side : Side) (color : Color) (inner : ColoredTree Item) (item : Item)
    (other : ColoredTree Item) : ColoredTree Item :=
  match side with
  | .left => .node color inner item other
  | .right => .node color other item inner

def inorder : ColoredTree Item → List Item
  | .leaf => []
  | .node _ left item right => left.inorder ++ item :: right.inorder

def height : ColoredTree Item → Nat
  | .leaf => 0
  | .node _ left _ right => max left.height right.height + 1

/-- Lift the child on the other side above the root. -/
def rotate : Side → ColoredTree Item → ColoredTree Item
  | .left, .node c left item (.node d middle lifted right) =>
      .node d (.node c left item middle) lifted right
  | .right, .node c (.node d left lifted middle) item right =>
      .node d left lifted (.node c middle item right)
  | _, tree => tree

@[simp] theorem color_node (c : Color) (left right : ColoredTree Item) (item : Item) :
    (node c left item right).color = c := rfl

@[simp] theorem color_join (side : Side) (c : Color) (inner other : ColoredTree Item)
    (item : Item) : (join side c inner item other).color = c := by
  cases side <;> rfl

@[simp] theorem paint_join (side : Side) (c d : Color) (inner other : ColoredTree Item)
    (item : Item) : (join side c inner item other).paint d = join side d inner item other := by
  cases side <;> rfl

@[simp] theorem color_paint_black (tree : ColoredTree Item) :
    (tree.paint .black).color = .black := by
  cases tree <;> rfl

theorem black_of_not_red {color : Color} (notRed : ¬color = .red) : color = .black := by
  cases color with
  | black => rfl
  | red => exact absurd rfl notRed

@[simp] theorem inorder_leaf : (leaf : ColoredTree Item).inorder = [] := rfl

@[simp] theorem inorder_node (c : Color) (left right : ColoredTree Item) (item : Item) :
    (node c left item right).inorder = left.inorder ++ item :: right.inorder := rfl

@[simp] theorem inorder_paint (c : Color) (tree : ColoredTree Item) :
    (tree.paint c).inorder = tree.inorder := by
  cases tree <;> rfl

theorem join_flip (side : Side) (c : Color) (inner other : ColoredTree Item) (item : Item) :
    join side.other c other item inner = join side c inner item other := by
  cases side <;> rfl

theorem rotate_join (side : Side) (c d : Color) (near middle far : ColoredTree Item)
    (item lifted : Item) :
    rotate side (join side.other c (join side d middle lifted far) item near) =
      join side d (join side.other c middle item near) lifted far := by
  cases side <;> rfl

@[simp] theorem inorder_rotate (side : Side) (tree : ColoredTree Item) :
    (rotate side tree).inorder = tree.inorder := by
  unfold rotate
  split <;> simp

/-- No red node has a red child, and every way from the root to a leaf passes
the same number of black nodes. -/
inductive Balanced : Nat → ColoredTree Item → Prop where
  | leaf : Balanced 0 .leaf
  | red {n : Nat} {left right : ColoredTree Item} (item : Item) :
      Balanced n left → left.color = .black → Balanced n right → right.color = .black →
      Balanced n (.node .red left item right)
  | black {n : Nat} {left right : ColoredTree Item} (item : Item) :
      Balanced n left → Balanced n right → Balanced (n + 1) (.node .black left item right)

theorem Balanced.join_red {n : Nat} {inner other : ColoredTree Item} (side : Side) (item : Item)
    (innerBalanced : Balanced n inner) (innerBlack : inner.color = .black)
    (otherBalanced : Balanced n other) (otherBlack : other.color = .black) :
    Balanced n (join side .red inner item other) := by
  cases side with
  | left => exact .red item innerBalanced innerBlack otherBalanced otherBlack
  | right => exact .red item otherBalanced otherBlack innerBalanced innerBlack

theorem Balanced.join_black {n : Nat} {inner other : ColoredTree Item} (side : Side)
    (item : Item) (innerBalanced : Balanced n inner) (otherBalanced : Balanced n other) :
    Balanced (n + 1) (join side .black inner item other) := by
  cases side with
  | left => exact .black item innerBalanced otherBalanced
  | right => exact .black item otherBalanced innerBalanced

theorem Balanced.replace {n : Nat} {c : Color} {left right : ColoredTree Item} {item : Item}
    (balanced : Balanced n (.node c left item right)) (other : Item) :
    Balanced n (.node c left other right) := by
  cases balanced with
  | red _ leftBalanced leftBlack rightBalanced rightBlack =>
      exact .red other leftBalanced leftBlack rightBalanced rightBlack
  | black _ leftBalanced rightBalanced => exact .black other leftBalanced rightBalanced

theorem Balanced.paint_black {n : Nat} {tree : ColoredTree Item} (balanced : Balanced n tree)
    (isRed : tree.color = .red) : Balanced (n + 1) (tree.paint .black) := by
  cases balanced with
  | leaf => cases isRed
  | red item leftBalanced _ rightBalanced _ => exact .black item leftBalanced rightBalanced
  | black => cases isRed

theorem Balanced.height_le {n : Nat} {tree : ColoredTree Item} (balanced : Balanced n tree) :
    tree.height ≤ 2 * n + 1 ∧ (tree.color = .black → tree.height ≤ 2 * n) := by
  induction balanced with
  | leaf => simp [height]
  | red item _ leftBlack _ rightBlack leftIh rightIh =>
      have left := leftIh.2 leftBlack
      have right := rightIh.2 rightBlack
      simp only [height, color_node, reduceCtorEq, false_implies, and_true]
      omega
  | black item _ _ leftIh rightIh =>
      have left := leftIh.1
      have right := rightIh.1
      simp only [height]
      omega

theorem Balanced.pow_le {n : Nat} {tree : ColoredTree Item} (balanced : Balanced n tree) :
    2 ^ n ≤ tree.inorder.length + 1 := by
  induction balanced with
  | leaf => simp
  | red item _ _ _ _ leftIh rightIh =>
      simp only [inorder_node, List.length_append, List.length_cons]
      omega
  | black item _ _ leftIh rightIh =>
      simp only [inorder_node, List.length_append, List.length_cons, Nat.pow_succ]
      omega

/-- A balanced tree with a black root is at most twice as high as a full tree
with as many nodes. -/
theorem Balanced.height_le_log {n : Nat} {tree : ColoredTree Item} (balanced : Balanced n tree)
    (isBlack : tree.color = .black) :
    tree.height ≤ 2 * Nat.log 2 (tree.inorder.length + 1) := by
  have blackNodes : n ≤ Nat.log 2 (tree.inorder.length + 1) :=
    Nat.le_log_of_pow_le (by decide) balanced.pow_le
  exact le_trans (balanced.height_le.2 isBlack) (Nat.mul_le_mul_left 2 blackNodes)

/-- A node passed on the way down, with the side that was taken and the
subtree on the other side. -/
structure Frame (Item : Type) where
  side : Side
  color : Color
  item : Item
  other : ColoredTree Item
deriving DecidableEq, Repr

def Frame.fill (frame : Frame Item) (inner : ColoredTree Item) : ColoredTree Item :=
  join frame.side frame.color inner frame.item frame.other

theorem fill_eq_join (frame : Frame Item) (inner : ColoredTree Item) :
    frame.fill inner = join frame.side frame.color inner frame.item frame.other := rfl

abbrev Path (Item : Type) := List (Frame Item)

def zip : Path Item → ColoredTree Item → ColoredTree Item
  | [], tree => tree
  | frame :: outer, tree => zip outer (frame.fill tree)

def before : Path Item → List Item
  | [] => []
  | frame :: outer =>
      before outer ++ match frame.side with
        | .left => []
        | .right => frame.other.inorder ++ [frame.item]

def after : Path Item → List Item
  | [] => []
  | frame :: outer =>
      (match frame.side with
        | .left => frame.item :: frame.other.inorder
        | .right => []) ++ after outer

@[simp] theorem zip_nil (tree : ColoredTree Item) : zip [] tree = tree := rfl

@[simp] theorem zip_cons (frame : Frame Item) (outer : Path Item) (tree : ColoredTree Item) :
    zip (frame :: outer) tree = zip outer (frame.fill tree) := rfl

@[simp] theorem color_fill (frame : Frame Item) (inner : ColoredTree Item) :
    (frame.fill inner).color = frame.color := color_join _ _ _ _ _

theorem inorder_zip (path : Path Item) (tree : ColoredTree Item) :
    (zip path tree).inorder = before path ++ tree.inorder ++ after path := by
  induction path generalizing tree with
  | nil => simp [before, after]
  | cons frame outer ih =>
      rw [zip_cons, ih]
      cases side : frame.side <;> simp [Frame.fill, join, before, after, side]

theorem inorder_zip_congr (path : Path Item) {tree other : ColoredTree Item}
    (same : tree.inorder = other.inorder) : (zip path tree).inorder = (zip path other).inorder := by
  rw [inorder_zip, inorder_zip, same]

theorem length_add_height_le (path : Path Item) (tree : ColoredTree Item) :
    path.length + tree.height ≤ (zip path tree).height := by
  induction path generalizing tree with
  | nil => exact (Nat.zero_add _).le
  | cons frame outer ih =>
      have above := ih (frame.fill tree)
      have below : tree.height + 1 ≤ (frame.fill tree).height := by
        cases side : frame.side <;> simp [fill_eq_join, join, height, side]
      rw [zip_cons, List.length_cons]
      omega

/-- A balanced subtree of black height `n` completes the path to a balanced
tree with a black root, unless it makes a red child of a red node. -/
inductive Open : Nat → Path Item → Prop where
  | top (n : Nat) : Open n []
  | black {n : Nat} {side : Side} {item : Item} {other : ColoredTree Item} {outer : Path Item} :
      Balanced n other → Open (n + 1) outer → Open n (⟨side, .black, item, other⟩ :: outer)
  | red {n : Nat} {side aboveSide : Side} {item aboveItem : Item}
      {other aboveOther : ColoredTree Item} {outer : Path Item} :
      Balanced n other → other.color = .black →
      Open n (⟨aboveSide, .black, aboveItem, aboveOther⟩ :: outer) →
      Open n (⟨side, .red, item, other⟩ :: ⟨aboveSide, .black, aboveItem, aboveOther⟩ :: outer)

def Admits (path : Path Item) (color : Color) : Prop :=
  color = .red → ∃ frame outer, path = frame :: outer ∧ frame.color = .black

theorem admits_black (path : Path Item) : Admits path .black := fun isRed => by cases isRed

theorem Open.balanced_zip {n : Nat} {path : Path Item} (isOpen : Open n path)
    {tree : ColoredTree Item} (balanced : Balanced n tree) (admitted : Admits path tree.color) :
    ∃ m, Balanced m (zip path tree) ∧ (zip path tree).color = .black := by
  induction isOpen generalizing tree with
  | top n =>
      refine ⟨n, balanced, ?_⟩
      cases color : tree.color with
      | black => exact color
      | red =>
          obtain ⟨frame, outer, impossible, _⟩ := admitted color
          cases impossible
  | black otherBalanced _ ih =>
      exact ih (.join_black _ _ balanced otherBalanced) (by simp [Frame.fill, admits_black])
  | red otherBalanced otherBlack _ ih =>
      -- the subtree is black: its parent is red
      have isBlack : tree.color = .black := by
        cases color : tree.color with
        | black => rfl
        | red =>
            obtain ⟨frame, outer, same, isBlack⟩ := admitted color
            rw [← (List.cons.inj same).1] at isBlack
            cases isBlack
      exact ih (.join_red _ _ balanced isBlack otherBalanced otherBlack)
        fun _ => ⟨_, _, rfl, rfl⟩

theorem Open.child {n : Nat} {path : Path Item} (isOpen : Open n path) (side : Side)
    {color : Color} {inner other : ColoredTree Item} {item : Item}
    (balanced : Balanced n (join side color inner item other)) (admitted : Admits path color) :
    ∃ m, Open m (⟨side, color, item, other⟩ :: path) ∧ Balanced m inner ∧
      Admits (⟨side, color, item, other⟩ :: path) inner.color := by
  cases color with
  | black =>
      have parts : ∃ m, n = m + 1 ∧ Balanced m inner ∧ Balanced m other := by
        cases side <;> cases balanced <;> exact ⟨_, rfl, by assumption, by assumption⟩
      obtain ⟨m, rfl, innerBalanced, otherBalanced⟩ := parts
      exact ⟨m, .black otherBalanced isOpen, innerBalanced, fun _ => ⟨_, _, rfl, rfl⟩⟩
  | red =>
      have parts : (Balanced n inner ∧ inner.color = .black) ∧
          Balanced n other ∧ other.color = .black := by
        cases side <;> cases balanced <;>
          exact ⟨⟨by assumption, by assumption⟩, by assumption, by assumption⟩
      obtain ⟨⟨innerBalanced, innerBlack⟩, otherBalanced, otherBlack⟩ := parts
      obtain ⟨⟨_, _, _, _⟩, outer, rfl, rfl⟩ := admitted rfl
      refine ⟨n, .red otherBalanced otherBlack isOpen, innerBalanced, ?_⟩
      rw [innerBlack]
      exact admits_black _

/-- The nodes around a red node whose parent is red and whose uncle is black:
a node on the inner side is first rotated outwards, then the grandparent goes
down on the uncle's side. -/
def settle (parent grand : Frame Item) (tree : ColoredTree Item) : ColoredTree Item :=
  let lower := if parent.side = grand.side then parent.fill tree
    else rotate grand.side (parent.fill tree)
  rotate grand.side.other ({ grand with color := .red }.fill (lower.paint .black))

def repair : Path Item → ColoredTree Item → ColoredTree Item
  | [], tree => tree.paint .black
  | [parent], tree => parent.fill tree
  | parent :: grand :: outer, tree =>
      if parent.color = .black then zip (parent :: grand :: outer) tree
      else if grand.other.color = .red then
        repair outer ({ grand with color := .red, other := grand.other.paint .black }.fill
          ({ parent with color := .black }.fill tree))
      else zip outer (settle parent grand tree)

theorem inorder_fill_congr (side : Side) (c d : Color) (item : Item)
    {inner newInner other newOther : ColoredTree Item} (sameInner : inner.inorder = newInner.inorder)
    (sameOther : other.inorder = newOther.inorder) :
    (join side c inner item other).inorder = (join side d newInner item newOther).inorder := by
  cases side <;> simp [join, sameInner, sameOther]

theorem inorder_settle (parent grand : Frame Item) (tree : ColoredTree Item) :
    (settle parent grand tree).inorder = (grand.fill (parent.fill tree)).inorder := by
  unfold settle
  rw [inorder_rotate]
  refine inorder_fill_congr _ _ _ _ ?_ rfl
  rw [inorder_paint]
  split
  · rfl
  · exact inorder_rotate _ _

theorem inorder_repair (path : Path Item) (tree : ColoredTree Item) :
    (repair path tree).inorder = (zip path tree).inorder := by
  induction path, tree using repair.induct with
  | case1 tree => simp [repair]
  | case2 parent tree => rfl
  | case3 parent grand outer tree isBlack => rw [repair, if_pos isBlack]
  | case4 parent grand outer tree isRed uncleRed ih =>
      rw [repair, if_neg isRed, if_pos uncleRed, ih]
      refine inorder_zip_congr outer (inorder_fill_congr _ _ _ _ ?_ (inorder_paint _ _))
      exact inorder_fill_congr _ _ _ _ rfl rfl
  | case5 parent grand outer tree isRed uncleBlack =>
      rw [repair, if_neg isRed, if_neg uncleBlack]
      exact inorder_zip_congr outer (inorder_settle parent grand tree)

theorem settle_balanced {n : Nat} (parent grand : Frame Item) {tree : ColoredTree Item}
    (balanced : Balanced n tree) (isRed : tree.color = .red) (parentRed : parent.color = .red)
    (siblingBalanced : Balanced n parent.other) (siblingBlack : parent.other.color = .black)
    (uncleBalanced : Balanced n grand.other) (uncleBlack : grand.other.color = .black) :
    Balanced (n + 1) (settle parent grand tree) ∧ (settle parent grand tree).color = .black := by
  obtain ⟨parentSide, parentColor, parentItem, sibling⟩ := parent
  obtain ⟨grandSide, grandColor, grandItem, uncle⟩ := grand
  cases balanced with
  | leaf => cases isRed
  | black => cases isRed
  | red item leftBalanced leftBlack rightBalanced rightBlack =>
      have inner := Balanced.red item leftBalanced leftBlack rightBalanced rightBlack
      simp only at parentRed siblingBalanced siblingBlack uncleBalanced uncleBlack
      subst parentRed
      cases parentSide <;> cases grandSide <;>
        simp only [settle, Frame.fill, join, rotate, paint, Side.other, reduceCtorEq, if_true,
          if_false, color_node, and_true]
      case left.left =>
        exact .black _ inner (.red _ siblingBalanced siblingBlack uncleBalanced uncleBlack)
      case right.right =>
        exact .black _ (.red _ uncleBalanced uncleBlack siblingBalanced siblingBlack) inner
      case left.right =>
        exact .black _ (.red _ uncleBalanced uncleBlack leftBalanced leftBlack)
          (.red _ rightBalanced rightBlack siblingBalanced siblingBlack)
      case right.left =>
        exact .black _ (.red _ siblingBalanced siblingBlack leftBalanced leftBlack)
          (.red _ rightBalanced rightBlack uncleBalanced uncleBlack)

/-- A red tree put where a black one of its black height fits is repaired to a
balanced tree with a black root. -/
theorem repair_balanced {n : Nat} {path : Path Item} {tree : ColoredTree Item}
    (isOpen : Open n path) (balanced : Balanced n tree) (isRed : tree.color = .red) :
    ∃ m, Balanced m (repair path tree) ∧ (repair path tree).color = .black := by
  induction path, tree using repair.induct generalizing n with
  | case1 tree =>
      exact ⟨n + 1, balanced.paint_black isRed, color_paint_black tree⟩
  | case2 parent tree =>
      cases isOpen with
      | black otherBalanced _ =>
          exact ⟨n + 1, .join_black _ _ balanced otherBalanced, color_fill _ _⟩
  | case3 parent grand outer tree isBlack =>
      rw [repair, if_pos isBlack]
      exact isOpen.balanced_zip balanced fun _ => ⟨parent, grand :: outer, rfl, isBlack⟩
  | case4 parent grand outer tree parentRed uncleRed ih =>
      rw [repair, if_neg parentRed, if_pos uncleRed]
      cases isOpen with
      | black => exact absurd rfl parentRed
      | red siblingBalanced _ outerOpen =>
          cases outerOpen with
          | black uncleBalanced outerOpen =>
              -- the grandparent is red now, over two black children
              have uncleBlack := uncleBalanced.paint_black uncleRed
              exact ih outerOpen
                (.join_red _ _ (.join_black _ _ balanced siblingBalanced) (color_join _ _ _ _ _)
                  uncleBlack (color_paint_black _))
                (color_fill _ _)
  | case5 parent grand outer tree parentRed uncleBlack =>
      rw [repair, if_neg parentRed, if_neg uncleBlack]
      cases isOpen with
      | black => exact absurd rfl parentRed
      | @red _ side aboveSide item aboveItem sibling uncle outer siblingBalanced siblingBlack
          outerOpen =>
          cases outerOpen with
          | black uncleBalanced outerOpen =>
              have settled := settle_balanced ⟨side, .red, item, sibling⟩
                ⟨aboveSide, .black, aboveItem, uncle⟩ balanced isRed rfl siblingBalanced
                siblingBlack uncleBalanced (black_of_not_red uncleBlack)
              apply outerOpen.balanced_zip settled.1
              rw [settled.2]
              exact admits_black _

end ColoredTree

end WPerf.Library
