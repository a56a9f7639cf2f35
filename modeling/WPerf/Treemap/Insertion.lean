import WPerf.Treemap.Rotation

/-!
# Insertion

`insertCase1` to `insertCase5` on a tree in memory: none of them reads or
writes through nil, and together they do what `repair` does to the tree that
is represented.
-/

namespace WPerf.Treemap

open WPerf.Library WPerf.Analyzer
open WPerf.Library.ColoredTree (Color Side Frame Path Open join zip repair settle)

set_option autoImplicit false

variable {Key Value : Type} [LinearOrder Key]

section Reads

variable {tree : Tree Key Value} {parent grand : Frame (Item Key Value)}
  {path outer : Path (Item Key Value)} {shape : Shape Key Value} {address : Nat}

theorem Represents.read_root (held : Represents tree path shape)
    (root : rootOf shape = some address) :
    ∃ node, tree.deref (some address) = .ok node ∧ node.parent = parentOf path ∧
      node.color = shape.color := by
  cases shape with
  | leaf => cases root
  | node color left item right =>
      have here : item.address = address := Option.some.inj root
      have joined : Represents tree path (join .left color left item right) := held
      have cellHere := joined.node
      rw [here] at cellHere
      exact ⟨_, Tree.deref_of_held cellHere, cell_parent _ _ _ _ _ _, cell_color _ _ _ _ _ _⟩

theorem Represents.child_iff (held : Represents tree (parent :: path) shape)
    (root : rootOf shape = some address) (lower : Side) :
    ∃ node, tree.deref (some parent.item.address) = .ok node ∧ node.parent = parentOf path ∧
      node.color = parent.color ∧ (some address = node.child lower ↔ parent.side = lower) ∧
      node.child parent.side.other = rootOf parent.other := by
  have above := (represents_fill_iff _ _ _ _).mpr held
  have here := above.node
  refine ⟨_, Tree.deref_of_held here, cell_parent _ _ _ _ _ _, cell_color _ _ _ _ _ _, ?_,
    cell_child_other _ _ _ _ _ _⟩
  constructor
  · intro same
    by_contra different
    rw [ColoredTree.Side.eq_other_of_ne (Ne.symm different), cell_child_other] at same
    have inside := root_mem_addresses root
    have apart := ((nodup_zip _ _).mp above.distinct).1
    exact ((nodup_join _ _ _ _ _).mp apart).2.2.2 address inside (root_mem_addresses same.symm)
  · rintro rfl
    rw [cell_child, root]

theorem Represents.grandparent (held : Represents tree (parent :: path) shape)
    (root : rootOf shape = some address) :
    tree.grandparent (some address) = .ok (parentOf path) := by
  obtain ⟨node, read, above, _⟩ := held.read_root root
  obtain ⟨upper, readUpper, aboveUpper, _⟩ := held.child_iff root .left
  simp only [Tree.grandparent, read, Fallible.ok_bind, above, parentOf, readUpper, aboveUpper]
  rfl

theorem Represents.placed (held : Represents tree (parent :: grand :: outer) shape)
    (root : rootOf shape = some address) (lower upper : Side) :
    tree.placed (some address) (some grand.item.address) lower upper =
      .ok (decide (parent.side = lower ∧ grand.side = upper)) := by
  have above := (represents_fill_iff _ _ _ _).mpr held
  obtain ⟨node, read, nodeAbove, _⟩ := held.read_root root
  obtain ⟨upperNode, readUpper, _, _, onLower, _⟩ := held.child_iff root lower
  obtain ⟨topNode, readTop, _, _, onUpper, _⟩ := above.child_iff (root_of_join _ _ _ _ _) upper
  simp only [Tree.placed, read, Fallible.ok_bind, nodeAbove, parentOf, readUpper, readTop, onLower,
    onUpper]
  by_cases isLower : parent.side = lower
  · rw [if_pos isLower]
    simp only [isLower, true_and]
    rfl
  · rw [if_neg isLower]
    simp only [isLower, false_and, decide_false]
    rfl

theorem Represents.uncle (held : Represents tree (parent :: grand :: outer) shape)
    (root : rootOf shape = some address) :
    tree.uncle (some address) = .ok (rootOf grand.other) := by
  have above := (represents_fill_iff _ _ _ _).mpr held
  obtain ⟨node, read, nodeAbove, _⟩ := held.read_root root
  obtain ⟨parentNode, readParent, parentAbove, _⟩ := held.child_iff root .left
  obtain ⟨grandNode, readGrand, _, _, onLeft, beside⟩ :=
    above.child_iff (root_of_join _ _ _ _ _) .left
  simp only [Tree.uncle, Tree.sibling, read, Fallible.ok_bind, nodeAbove, parentOf, readParent,
    parentAbove, readGrand]
  change (if some parent.item.address = grandNode.child .left then
      Except.ok (grandNode.child .right) else .ok (grandNode.child .left)) = _
  cases side : grand.side with
  | left =>
      rw [if_pos (onLeft.mpr side)]
      rw [side] at beside
      exact congrArg Except.ok beside
  | right =>
      rw [if_neg fun same => by rw [onLeft.mp same] at side; cases side]
      rw [side] at beside
      exact congrArg Except.ok beside

theorem node_color_holds {parent : Pointer} (holds : Holds tree.nodes parent shape) :
    tree.nodeColor (rootOf shape) = .ok shape.color := by
  cases shape with
  | leaf => rfl
  | node color left item right =>
      simp only [rootOf, Tree.nodeColor, Tree.deref_of_held holds.1, Fallible.ok_bind, cell_color]
      rfl

end Reads

section Cases

variable {tree : Tree Key Value} {parent grand : Frame (Item Key Value)}
  {path outer : Path (Item Key Value)} {shape : Shape Key Value} {address : Nat}

/-- A node that lies on the same side as its parent: the grandparent goes down
on the other. -/
theorem insert_case5_represents (held : Represents tree (parent :: grand :: outer) shape)
    (root : rootOf shape = some address) (aligned : parent.side = grand.side) :
    ∃ settled, tree.insertCase5 (some address) = .ok settled ∧
      Represents settled outer (ColoredTree.rotate grand.side.other
        ({ grand with color := .red }.fill ({ parent with color := .black }.fill shape))) ∧
      Kept tree settled := by
  obtain ⟨node, read, nodeAbove, _⟩ := held.read_root root
  obtain ⟨first, ranFirst, firstHeld, firstKept⟩ :=
    ((represents_fill_iff _ _ _ _).mpr held).assign_color .black
  have lower : Represents first (⟨parent.side, .black, parent.item, parent.other⟩ :: grand :: outer)
      shape := (represents_fill_iff _ ⟨_, _, _, _⟩ _ _).mp firstHeld
  obtain ⟨second, ranSecond, secondHeld, secondKept⟩ :=
    ((represents_fill_iff _ _ _ _).mpr firstHeld).assign_color .red
  have painted : Represents second
      (⟨parent.side, .black, parent.item, parent.other⟩ ::
        ⟨grand.side, .red, grand.item, grand.other⟩ :: outer) shape :=
    (represents_fill_iff _ ⟨_, _, _, _⟩ _ _).mp
      ((represents_fill_iff _ ⟨_, _, _, _⟩ _ _).mp secondHeld)
  simp only [Tree.insertCase5, read, Fallible.ok_bind, nodeAbove, parentOf, ranFirst,
    lower.grandparent root, ranSecond, painted.placed root, aligned]
  obtain ⟨parentSide, parentColor, parentItem, sibling⟩ := parent
  obtain ⟨grandSide, grandColor, grandItem, uncle⟩ := grand
  simp only at aligned
  subst aligned
  cases parentSide with
  | left =>
      have shifted : Represents second outer (join Side.right.other .red
          (join .right .black sibling parentItem shape) grandItem uncle) := secondHeld
      obtain ⟨settled, ran, result, kept⟩ := rotate_represents .right shifted
      exact ⟨settled, ran, result, firstKept.trans (secondKept.trans kept)⟩
  | right =>
      have shifted : Represents second outer (join Side.left.other .red
          (join .left .black sibling parentItem shape) grandItem uncle) := secondHeld
      obtain ⟨settled, ran, result, kept⟩ := rotate_represents .left shifted
      exact ⟨settled, ran, result, firstKept.trans (secondKept.trans kept)⟩

theorem insert_case4_represents (held : Represents tree (parent :: grand :: outer) shape)
    (root : rootOf shape = some address) :
    ∃ settled, tree.insertCase4 (some address) = .ok settled ∧
      Represents settled outer (settle parent grand shape) ∧ Kept tree settled := by
  obtain ⟨node, read, nodeAbove, _⟩ := held.read_root root
  by_cases aligned : parent.side = grand.side
  · obtain ⟨settled, ran, result, kept⟩ := insert_case5_represents held root aligned
    refine ⟨settled, ?_, ?_, kept⟩
    · simp only [Tree.insertCase4, held.grandparent root, Fallible.ok_bind, parentOf,
        held.placed root, aligned]
      cases grand.side <;> exact ran
    · rw [settle, if_pos aligned, ColoredTree.fill_eq_join parent, ColoredTree.paint_join]
      exact result
  · obtain ⟨parentSide, parentColor, parentItem, sibling⟩ := parent
    obtain ⟨grandSide, grandColor, grandItem, uncle⟩ := grand
    cases shape with
    | leaf => cases root
    | node color left item right =>
        cases parentSide <;> cases grandSide <;> try exact absurd rfl aligned
        case right.left =>
          have inner : Represents tree (⟨.left, grandColor, grandItem, uncle⟩ :: outer)
              (join Side.left.other parentColor (join .left color left item right) parentItem
                sibling) := (represents_fill_iff _ ⟨_, _, _, _⟩ _ _).mpr held
          obtain ⟨turned, ranTurn, turnedHeld, turnedKept⟩ := rotate_represents .left inner
          have ranRotate : tree.rotateLeft (some parentItem.address) = .ok turned := ranTurn
          obtain ⟨settled, ran, result, kept⟩ := insert_case5_represents
            ((represents_fill_iff _ ⟨.left, color, item, right⟩ _ _).mp turnedHeld)
            (root_of_join _ _ _ _ _) rfl
          refine ⟨settled, ?_, result, turnedKept.trans kept⟩
          rw [← Option.some.inj root] at read ⊢
          simp only [Tree.insertCase4, held.grandparent rfl, Fallible.ok_bind, parentOf,
            held.placed rfl, read, nodeAbove, and_self, decide_true, if_true, ranRotate,
            Tree.deref_of_held turnedHeld.node, left_cell_left, root_of_join]
          exact ran
        case left.right =>
          have inner : Represents tree (⟨.right, grandColor, grandItem, uncle⟩ :: outer)
              (join Side.right.other parentColor (join .right color right item left) parentItem
                sibling) := (represents_fill_iff _ ⟨_, _, _, _⟩ _ _).mpr held
          obtain ⟨turned, ranTurn, turnedHeld, turnedKept⟩ := rotate_represents .right inner
          have ranRotate : tree.rotateRight (some parentItem.address) = .ok turned := ranTurn
          obtain ⟨settled, ran, result, kept⟩ := insert_case5_represents
            ((represents_fill_iff _ ⟨.right, color, item, left⟩ _ _).mp turnedHeld)
            (root_of_join _ _ _ _ _) rfl
          refine ⟨settled, ?_, result, turnedKept.trans kept⟩
          rw [← Option.some.inj root] at read ⊢
          simp only [Tree.insertCase4, held.grandparent rfl, Fallible.ok_bind, parentOf,
            held.placed rfl, read, nodeAbove, reduceCtorEq, and_self, decide_false, decide_true,
            Bool.false_eq_true, if_false, if_true, ranRotate,
            Tree.deref_of_held turnedHeld.node, right_cell_right, root_of_join]
          exact ran

theorem Represents.assign_beside (held : Represents tree (grand :: outer) shape)
    (isRed : grand.other.color = .red) (color : Color) :
    ∃ painted, tree.assign (rootOf grand.other) (Node.setColor color) = .ok painted ∧
      Represents painted ({ grand with other := grand.other.paint color } :: outer) shape ∧
      Kept tree painted := by
  have above := (represents_fill_iff _ _ _ _).mpr held
  rw [Frame.fill, ← ColoredTree.join_flip] at above
  have beside := (represents_fill_iff _ ⟨_, _, _, _⟩ _ _).mp above
  cases other : grand.other with
  | leaf => rw [other] at isRed; cases isRed
  | node otherColor left item right =>
      rw [other] at beside
      have joined : Represents tree
          (⟨grand.side.other, grand.color, grand.item, shape⟩ :: outer)
          (join .left otherColor left item right) := beside
      obtain ⟨painted, ran, result, kept⟩ := joined.assign_color color
      refine ⟨painted, ran, ?_, kept⟩
      have filled := (represents_fill_iff _ ⟨_, _, _, _⟩ _ _).mpr result
      rw [Frame.fill, ColoredTree.join_flip] at filled
      exact (represents_fill_iff _ ⟨_, _, _, _⟩ _ _).mp filled

/-- A red parent with a red sibling: both become black, the grandparent red,
and the work goes on there. -/
theorem insert_case3_red (again : Tree Key Value → Pointer → Except Fault (Tree Key Value))
    (held : Represents tree (parent :: grand :: outer) shape)
    (root : rootOf shape = some address) (uncleRed : grand.other.color = .red) :
    ∃ painted, tree.insertCase3 again (some address) = again painted (some grand.item.address) ∧
      Represents painted outer
        ({ grand with color := .red, other := grand.other.paint .black }.fill
          ({ parent with color := .black }.fill shape)) ∧ Kept tree painted := by
  obtain ⟨node, read, nodeAbove, _⟩ := held.read_root root
  have uncleColor : tree.nodeColor (rootOf grand.other) = .ok .red := by
    rw [node_color_holds ((holds_zip _ _ _).mp held.holds).1.2.2.2.1, uncleRed]
  obtain ⟨first, ranFirst, firstHeld, firstKept⟩ :=
    ((represents_fill_iff _ _ _ _).mpr held).assign_color .black
  obtain ⟨second, ranSecond, secondHeld, secondKept⟩ := firstHeld.assign_beside uncleRed .black
  have lower := (represents_fill_iff _ ⟨parent.side, .black, parent.item, parent.other⟩ _ _).mp
    secondHeld
  obtain ⟨third, ranThird, thirdHeld, thirdKept⟩ :=
    ((represents_fill_iff _ _ _ _).mpr secondHeld).assign_color .red
  have painted := (represents_fill_iff _ ⟨parent.side, .black, parent.item, parent.other⟩ _ _).mp
    ((represents_fill_iff _ ⟨grand.side, .red, grand.item, grand.other.paint .black⟩ _ _).mp
      thirdHeld)
  refine ⟨third, ?_, thirdHeld, firstKept.trans (secondKept.trans thirdKept)⟩
  simp only [Tree.insertCase3, held.uncle root, Fallible.ok_bind, uncleColor, if_true, read,
    nodeAbove, parentOf, ranFirst, ranSecond, lower.grandparent root, ranThird,
    painted.grandparent root]

theorem insert_case1_black (fuel : Nat) (held : Represents tree (parent :: path) shape)
    (root : rootOf shape = some address) (isBlack : parent.color = .black) :
    Tree.insertCase1 (fuel + 1) tree (some address) = .ok tree := by
  obtain ⟨node, read, nodeAbove, _⟩ := held.read_root root
  obtain ⟨upper, readUpper, _, colorUpper, _⟩ := held.child_iff root .left
  simp only [Tree.insertCase1, Tree.insertCase2, Tree.nodeColor, read, Fallible.ok_bind, nodeAbove,
    parentOf, readUpper, colorUpper, isBlack, reduceCtorEq, if_false]
  rfl

theorem insert_case1_red (fuel : Nat) (held : Represents tree (parent :: path) shape)
    (root : rootOf shape = some address) (notBlack : ¬parent.color = .black) :
    Tree.insertCase1 (fuel + 1) tree (some address) =
      tree.insertCase3 (Tree.insertCase1 fuel) (some address) := by
  obtain ⟨node, read, nodeAbove, _⟩ := held.read_root root
  obtain ⟨upper, readUpper, _, colorUpper, _⟩ := held.child_iff root .left
  simp only [Tree.insertCase1, Tree.insertCase2, Tree.nodeColor, read, Fallible.ok_bind, nodeAbove,
    parentOf, readUpper, colorUpper, reduceCtorEq, if_false]
  exact if_neg notBlack

/-- `insertCase1` does what `repair` does, if the way up ends at a black root. -/
theorem insert_case1_represents (fuel : Nat) {n : Nat} (isOpen : Open n path)
    (enough : path.length < 2 * fuel) (held : Represents tree path shape)
    (root : rootOf shape = some address) :
    ∃ settled, Tree.insertCase1 fuel tree (some address) = .ok settled ∧
      Represents settled [] (repair path shape) ∧ Kept tree settled := by
  induction fuel generalizing n tree path shape address with
  | zero => omega
  | succ fuel ih =>
      obtain ⟨node, read, nodeAbove, _⟩ := held.read_root root
      match path with
      | [] =>
          cases shape with
          | leaf => cases root
          | node color left item right =>
              have joined : Represents tree [] (join .left color left item right) := held
              obtain ⟨painted, ran, result, kept⟩ := joined.assign_color .black
              have here : item.address = address := Option.some.inj root
              rw [here] at ran
              refine ⟨painted, ?_, result, kept⟩
              simp only [Tree.insertCase1, read, Fallible.ok_bind, nodeAbove, parentOf, if_true]
              exact ran
      | [parent] =>
          cases isOpen with
          | black =>
              refine ⟨tree, ?_, (represents_zip_iff _ _ _).mpr held, Kept.refl tree⟩
              exact insert_case1_black fuel held root rfl
      | parent :: grand :: outer =>
          by_cases parentBlack : parent.color = .black
          · rw [repair, if_pos parentBlack]
            refine ⟨tree, ?_, (represents_zip_iff _ _ _).mpr held, Kept.refl tree⟩
            exact insert_case1_black fuel held root parentBlack
          · rw [repair, if_neg parentBlack]
            have stepped := insert_case1_red fuel held root parentBlack
            by_cases uncleRed : grand.other.color = .red
            · rw [if_pos uncleRed]
              cases isOpen with
              | black => exact absurd rfl parentBlack
              | red _ _ outerOpen =>
                  cases outerOpen with
                  | black _ outerOpen =>
                      obtain ⟨painted, ran, result, kept⟩ :=
                        insert_case3_red (Tree.insertCase1 fuel) held root uncleRed
                      obtain ⟨settled, ranAbove, resultAbove, keptAbove⟩ := ih outerOpen
                        (by simp only [List.length_cons] at enough; omega) result
                        (root_of_join _ _ _ _ _)
                      exact ⟨settled, (stepped.trans ran).trans ranAbove, resultAbove,
                        kept.trans keptAbove⟩
            · rw [if_neg uncleRed]
              have uncleColor := node_color_holds ((holds_zip _ _ _).mp held.holds).1.2.2.2.1
              obtain ⟨settled, ran, result, kept⟩ := insert_case4_represents held root
              refine ⟨settled, stepped.trans ?_, (represents_zip_iff _ _ _).mpr result, kept⟩
              simp only [Tree.insertCase3, held.uncle root, Fallible.ok_bind, uncleColor, uncleRed,
                if_false, ran]

end Cases

end WPerf.Treemap
