import WPerf.Treemap.Shape

/-!
# Writes and rotations

What the writes of the tree code do to the tree that is represented: a node
gets another colour or content, a child takes its parent's place, and a
rotation in memory is the rotation of the subtree. Nothing else moves.
-/

namespace WPerf.Treemap

open WPerf.Library WPerf.Analyzer
open WPerf.Library.ColoredTree (Color Side Frame Path join zip)

set_option autoImplicit false

variable {Key Value : Type} [LinearOrder Key]

structure Kept (earlier later : Tree Key Value) : Prop where
  size : later.size = earlier.size
  comparator : later.comparator = earlier.comparator

theorem Kept.refl (tree : Tree Key Value) : Kept tree tree := ⟨rfl, rfl⟩

theorem Kept.trans {first second third : Tree Key Value} (early : Kept first second)
    (late : Kept second third) : Kept first third :=
  ⟨late.size.trans early.size, late.comparator.trans early.comparator⟩

theorem kept_store (tree : Tree Key Value) (address : Nat) (node : Node Key Value) :
    Kept tree (tree.store address node) := ⟨rfl, rfl⟩

theorem assign_holds {tree : Tree Key Value} {address : Nat} {node : Node Key Value}
    (held : tree.nodes[address]? = some node) (change : Node Key Value → Node Key Value) :
    ∃ moved, tree.assign (some address) change = .ok moved ∧
      moved.nodes[address]? = some (change node) ∧ moved.root = tree.root ∧ Kept tree moved ∧
      ∀ other, other ≠ address → moved.nodes[other]? = tree.nodes[other]? :=
  ⟨_, Tree.assign_of_held held change, Tree.store_nodes_self held _, rfl, kept_store _ _ _,
    fun _ different => Tree.store_nodes_ne _ different⟩

section Node

variable {tree : Tree Key Value} {path : Path (Item Key Value)} {side : Side} {color : Color}
  {inner other : Shape Key Value} {item : Item Key Value}

theorem Represents.store_node
    (held : Represents tree path (join side color inner item other))
    (newColor : Color) (newItem : Item Key Value) (stays : newItem.address = item.address) :
    Represents (tree.store item.address
        (cell side newColor (rootOf inner) newItem (rootOf other) (parentOf path))) path
      (join side newColor inner newItem other) := by
  have memory := (holds_zip _ _ _).mp held.holds
  obtain ⟨here, innerHolds, otherHolds⟩ := (holds_join _ _ _ _ _ _ _).mp memory.2
  have apart := (nodup_zip _ _).mp held.distinct
  have parts := (nodup_join _ _ _ _ _).mp apart.1
  have root : rootOf (join side newColor inner newItem other) =
      rootOf (join side color inner item other) := by simp [stays]
  constructor
  · rw [Tree.store_root, held.root, root_of_zip, root_of_zip, root]
  · rw [holds_zip, holds_join, stays, root]
    refine ⟨holds_path_congr memory.1 ?_, Tree.store_nodes_self here _,
      holds_congr innerHolds ?_, holds_congr otherHolds ?_⟩
    · intro address beside
      apply Tree.store_nodes_ne
      rintro rfl
      exact apart.2.2 _ (by simp) beside
    · intro address inside
      exact Tree.store_nodes_ne _ (ne_of_mem_of_not_mem inside parts.1.1)
    · intro address inside
      exact Tree.store_nodes_ne _ (ne_of_mem_of_not_mem inside parts.1.2)
  · rw [nodup_zip, nodup_join, stays]
    refine ⟨parts, apart.2.1, ?_⟩
    intro address inside
    refine apart.2.2 address ?_
    rw [mem_addresses_join] at inside ⊢
    rwa [stays] at inside

theorem Represents.assign_color
    (held : Represents tree path (join side color inner item other)) (newColor : Color) :
    ∃ painted, tree.assign (some item.address) (Node.setColor newColor) = .ok painted ∧
      Represents painted path (join side newColor inner item other) ∧ Kept tree painted := by
  refine ⟨_, Tree.assign_of_held held.node _, ?_, kept_store _ _ _⟩
  rw [cell_set_color]
  exact held.store_node newColor item rfl

end Node

theorem adopt_holds {tree : Tree Key Value} {parent : Pointer} {shape : Shape Key Value}
    (holds : Holds tree.nodes parent shape) (distinct : (addresses shape).Nodup)
    (pointer : Pointer) :
    ∃ moved, tree.adopt (rootOf shape) pointer = .ok moved ∧ Holds moved.nodes pointer shape ∧
      moved.root = tree.root ∧ Kept tree moved ∧
      ∀ address, address ∉ addresses shape → moved.nodes[address]? = tree.nodes[address]? := by
  cases shape with
  | leaf => exact ⟨tree, rfl, trivial, rfl, Kept.refl tree, fun _ _ => rfl⟩
  | node color left item right =>
      obtain ⟨here, leftHolds, rightHolds⟩ := holds
      have parts := (nodup_join .left color left right item).mp distinct
      refine ⟨_, Tree.assign_of_held here _, ⟨?_, ?_, ?_⟩, rfl, kept_store _ _ _, ?_⟩
      · rw [Tree.store_nodes_self here, cell_set_parent]
      · refine holds_congr leftHolds fun address inside => ?_
        exact Tree.store_nodes_ne _ (ne_of_mem_of_not_mem inside parts.1.1)
      · refine holds_congr rightHolds fun address inside => ?_
        exact Tree.store_nodes_ne _ (ne_of_mem_of_not_mem inside parts.1.2)
      · intro address off
        refine Tree.store_nodes_ne _ fun same => off ?_
        simp [same]

/-- The place above the old node, which is the root of the tree or a child of
the node above, points to the new one. -/
theorem replace_below_holds {tree : Tree Key Value} {path : Path (Item Key Value)} {old : Nat}
    {new : Pointer} (root : tree.root = topOf path (some old))
    (holds : HoldsPath tree.nodes (some old) path)
    (distinct : (outside path).Nodup) (oldOff : old ∉ outside path) :
    ∃ moved, tree.replaceBelow (parentOf path) (some old) new = .ok moved ∧
      moved.root = topOf path new ∧ HoldsPath moved.nodes new path ∧ Kept tree moved ∧
      ∀ address, address ∉ outside path → moved.nodes[address]? = tree.nodes[address]? := by
  cases path with
  | nil => exact ⟨{ tree with root := new }, rfl, rfl, trivial, ⟨rfl, rfl⟩, fun _ _ => rfl⟩
  | cons frame outer =>
      obtain ⟨here, beside, above⟩ := holds
      have parts := (nodup_outside_cons _ _).mp distinct
      have item := (nodup_join _ _ _ _ _).mp parts.1
      refine ⟨tree.store frame.item.address (cell frame.side frame.color new frame.item
        (rootOf frame.other) (parentOf outer)), ?_, root, ⟨?_, ?_, ?_⟩, kept_store _ _ _, ?_⟩
      · -- the comparison with the left child tells the side
        have notOther : some old ≠ rootOf frame.other := fun same =>
          oldOff ((mem_outside_cons _ _ _).mpr (Or.inr (Or.inl (root_mem_addresses same.symm))))
        unfold Tree.replaceBelow parentOf
        simp only [Tree.deref_of_held here, Fallible.ok_bind, Tree.assign_of_held here]
        cases frame.side with
        | left => rw [left_cell_left, if_pos rfl, cell_set_child]; rfl
        | right => rw [right_cell_left, if_neg notOther, cell_set_child]; rfl
      · exact Tree.store_nodes_self here _
      · refine holds_congr beside fun address inside => ?_
        exact Tree.store_nodes_ne _ (ne_of_mem_of_not_mem inside item.1.2)
      · refine holds_path_congr above fun address beyond => ?_
        refine Tree.store_nodes_ne _ fun same => parts.2.2 address ?_ beyond
        simp [Frame.fill, same]
      · intro address off
        refine Tree.store_nodes_ne _ fun same => off ?_
        simp [same]

/-- `replaceNode` hangs the new node where the old one was. The old node keeps
its own fields. -/
theorem replace_node_holds {tree : Tree Key Value} {path : Path (Item Key Value)} {old new : Nat}
    {oldNode newNode : Node Key Value} (root : tree.root = topOf path (some old))
    (holds : HoldsPath tree.nodes (some old) path)
    (oldHeld : tree.nodes[old]? = some oldNode) (oldParent : oldNode.parent = parentOf path)
    (newHeld : tree.nodes[new]? = some newNode)
    (distinct : (outside path).Nodup) (oldOff : old ∉ outside path) (newOff : new ∉ outside path) :
    ∃ moved, tree.replaceNode (some old) (some new) = .ok moved ∧
      moved.root = topOf path (some new) ∧ HoldsPath moved.nodes (some new) path ∧
      moved.nodes[new]? = some (newNode.setParent (parentOf path)) ∧ Kept tree moved ∧
      ∀ address, address ∉ outside path → address ≠ new →
        moved.nodes[address]? = tree.nodes[address]? := by
  obtain ⟨below, ran, rootBelow, holdsBelow, kept, same⟩ :=
    replace_below_holds root holds distinct oldOff
  have oldBelow := (same old oldOff).trans oldHeld
  have newBelow := (same new newOff).trans newHeld
  refine ⟨below.store new (newNode.setParent (parentOf path)), ?_, rootBelow,
    holds_path_congr holdsBelow ?_, Tree.store_nodes_self newBelow _,
    kept.trans (kept_store _ _ _), ?_⟩
  · rw [Tree.replaceNode, Tree.deref_of_held oldHeld, Fallible.ok_bind, oldParent, ran,
      Fallible.ok_bind, Tree.deref_of_held oldBelow, Fallible.ok_bind, oldParent]
    exact Tree.assign_of_held newBelow _
  · intro address beside
    exact Tree.store_nodes_ne _ (ne_of_mem_of_not_mem beside newOff)
  · intro address off different
    exact (Tree.store_nodes_ne _ different).trans (same address off)

/-- A rotation in memory is the rotation of the subtree. -/
theorem rotate_represents {tree : Tree Key Value} {path : Path (Item Key Value)} (side : Side)
    {color liftedColor : Color} {middle far near : Shape Key Value}
    {item lifted : Item Key Value}
    (held : Represents tree path
      (join side.other color (join side liftedColor middle lifted far) item near)) :
    ∃ turned, Tree.rotate side tree (some item.address) = .ok turned ∧
      Represents turned path
        (join side liftedColor (join side.other color middle item near) lifted far) ∧
      Kept tree turned := by
  have memory := (holds_zip _ _ _).mp held.holds
  obtain ⟨itemHere, inner, nearHolds⟩ := (holds_join _ _ _ _ _ _ _).mp memory.2
  obtain ⟨liftedHere, middleHolds, farHolds⟩ := (holds_join _ _ _ _ _ _ _).mp inner
  have apart := (nodup_zip _ _).mp held.distinct
  have outer := (nodup_join _ _ _ _ _).mp apart.1
  have lower := (nodup_join _ _ _ _ _).mp outer.2.1
  have rooted := held.root
  rw [root_of_zip, root_of_join] at rooted
  rw [root_of_join] at memory itemHere
  simp only [mem_addresses_join] at apart outer
  -- the addresses that the writes must not mix up
  have itemOff : item.address ∉ outside path := apart.2.2 _ (Or.inl rfl)
  have liftedOff : lifted.address ∉ outside path := apart.2.2 _ (Or.inr (Or.inl (Or.inl rfl)))
  have different : item.address ≠ lifted.address := fun same => outer.1.1 (Or.inl same)
  have itemMiddle : item.address ∉ addresses middle := fun inside =>
    outer.1.1 (Or.inr (Or.inl inside))
  have itemFar : item.address ∉ addresses far := fun inside =>
    outer.1.1 (Or.inr (Or.inr inside))
  obtain ⟨first, ranFirst, firstRoot, firstPath, firstLifted, firstKept, firstSame⟩ :=
    replace_node_holds rooted memory.1 itemHere (cell_parent _ _ _ _ _ _) liftedHere apart.2.1
      itemOff liftedOff
  rw [cell_set_parent] at firstLifted
  have firstItem := (firstSame _ itemOff different).trans itemHere
  -- the node takes the middle subtree
  obtain ⟨second, ranSecond, secondItem, secondRoot, secondKept, secondSame⟩ :=
    assign_holds firstItem (Node.setChild side.other (rootOf middle))
  rw [cell_set_child] at secondItem
  have secondLifted := (secondSame _ different.symm).trans firstLifted
  have secondMiddle : Holds second.nodes (some lifted.address) middle := by
    refine holds_congr middleHolds fun address inside => ?_
    rw [secondSame _ (ne_of_mem_of_not_mem inside itemMiddle)]
    exact firstSame address (apart.2.2 _ (Or.inr (Or.inl (Or.inr (Or.inl inside)))))
      (ne_of_mem_of_not_mem inside lower.1.1)
  obtain ⟨third, ranThird, thirdMiddle, thirdRoot, thirdKept, thirdSame⟩ :=
    adopt_holds secondMiddle lower.2.1 (some item.address)
  have thirdLifted := (thirdSame _ lower.1.1).trans secondLifted
  -- and goes below the lifted node
  obtain ⟨fourth, ranFourth, fourthLifted, fourthRoot, fourthKept, fourthSame⟩ :=
    assign_holds thirdLifted (Node.setChild side (some item.address))
  rw [cell_set_child] at fourthLifted
  have fourthItem := ((fourthSame _ different).trans (thirdSame _ itemMiddle)).trans secondItem
  obtain ⟨fifth, ranFifth, fifthItem, fifthRoot, fifthKept, fifthSame⟩ :=
    assign_holds fourthItem (Node.setParent (some lifted.address))
  rw [cell_set_parent] at fifthItem
  have settled : ∀ address, address ≠ item.address → address ≠ lifted.address →
      address ∉ addresses middle → fifth.nodes[address]? = first.nodes[address]? := by
    intro address notItem notLifted off
    rw [fifthSame _ notItem, fourthSame _ notLifted, thirdSame address off, secondSame _ notItem]
  have untouched : ∀ address, address ∉ outside path → address ≠ item.address →
      address ≠ lifted.address → address ∉ addresses middle →
      fifth.nodes[address]? = tree.nodes[address]? := fun address off notItem notLifted offMiddle =>
    (settled address notItem notLifted offMiddle).trans (firstSame address off notLifted)
  refine ⟨fifth, ?_, ⟨?_, ?_, ?_⟩, ?_⟩
  · simp only [Tree.rotate, Tree.deref_of_held itemHere, Fallible.ok_bind, cell_child, ranFirst,
      Tree.deref_of_held firstLifted, ranSecond, Tree.deref_of_held secondLifted, ranThird,
      ranFourth, ranFifth]
  · rw [root_of_zip, root_of_join]
    exact fifthRoot.trans (fourthRoot.trans (thirdRoot.trans (secondRoot.trans firstRoot)))
  · rw [holds_zip, holds_join, holds_join, root_of_join, root_of_join]
    refine ⟨holds_path_congr firstPath ?_, ?_, ⟨fifthItem, ?_, ?_⟩, ?_⟩
    · intro address beside
      apply settled address
      · exact ne_of_mem_of_not_mem beside itemOff
      · exact ne_of_mem_of_not_mem beside liftedOff
      · exact fun inside => apart.2.2 address (Or.inr (Or.inl (Or.inr (Or.inl inside)))) beside
    · exact (fifthSame _ different.symm).trans fourthLifted
    · refine holds_congr thirdMiddle fun address inside => ?_
      rw [fifthSame _ (ne_of_mem_of_not_mem inside itemMiddle),
        fourthSame _ (ne_of_mem_of_not_mem inside lower.1.1)]
    · refine holds_congr nearHolds fun address inside => untouched address ?_ ?_ ?_ ?_
      · exact apart.2.2 address (Or.inr (Or.inr inside))
      · exact ne_of_mem_of_not_mem inside outer.1.2
      · rintro rfl
        exact outer.2.2.2 _ (Or.inl rfl) inside
      · exact fun shared => outer.2.2.2 _ (Or.inr (Or.inl shared)) inside
    · refine holds_congr farHolds fun address inside => untouched address ?_ ?_ ?_ ?_
      · exact apart.2.2 address (Or.inr (Or.inl (Or.inr (Or.inr inside))))
      · exact ne_of_mem_of_not_mem inside itemFar
      · exact ne_of_mem_of_not_mem inside lower.1.2
      · exact fun shared => lower.2.2.2 _ shared inside
  · -- a rotation keeps the order of the items, and so the addresses
    have sameOrder := ColoredTree.inorder_zip_congr path
      (ColoredTree.inorder_rotate side
        (join side.other color (join side liftedColor middle lifted far) item near))
    rw [ColoredTree.rotate_join] at sameOrder
    rw [addresses, sameOrder]
    exact held.distinct
  · exact firstKept.trans (secondKept.trans (thirdKept.trans (fourthKept.trans fifthKept)))

end WPerf.Treemap
