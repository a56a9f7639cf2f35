import WPerf.Treemap.Lookup

/-!
# The iterator

`Next` on a tree in memory moves as a cursor moves through the tree that is
represented, so a loop over an iterator meets the items from left to right.
-/

namespace WPerf.Treemap

open WPerf.Library WPerf.Analyzer
open WPerf.Library.ColoredTree (Color Side Frame Path Cursor Sorted join zip)

set_option autoImplicit false

variable {Key Value : Type} [LinearOrder Key]

variable {tree : Tree Key Value} {path : Path (Item Key Value)} {shape : Shape Key Value}

def pointerTo (cursor : Option (Cursor (Item Key Value))) : Pointer :=
  cursor.map fun found => found.item.address

theorem left_loop_spec (fuel : Nat) (parent : Pointer) (held : Represents tree path shape)
    (enough : shape.height < fuel) :
    tree.leftLoop fuel parent (rootOf shape) =
      .ok (match Cursor.first path shape with
        | none => parent
        | some found => some found.item.address) := by
  induction fuel generalizing parent path shape with
  | zero => exact absurd enough (Nat.not_lt_zero _)
  | succ fuel ih =>
      cases shape with
      | leaf => rfl
      | node color left item right =>
          have joined : Represents tree path (join .left color left item right) := held
          have lower : left.height < fuel := by
            simp only [ColoredTree.height] at enough
            omega
          have inner := ih (some item.address)
            ((represents_fill_iff _ ⟨.left, color, item, right⟩ _ _).mp joined) lower
          simp only [root_of_node, Tree.leftLoop, Tree.deref_of_held joined.node,
            Fallible.ok_bind, left_cell_left, inner, Cursor.first]
          cases Cursor.first (⟨.left, color, item, right⟩ :: path) left <;> rfl

theorem descend_spec (fuel : Nat) {address : Nat} (held : Represents tree path shape)
    (root : rootOf shape = some address) (enough : shape.height ≤ fuel) :
    Iterator.descend tree fuel (some address) = .ok (pointerTo (Cursor.first path shape)) := by
  induction fuel generalizing path shape address with
  | zero =>
      cases shape with
      | leaf => cases root
      | node color left item right => simp [ColoredTree.height] at enough
  | succ fuel ih =>
      cases shape with
      | leaf => cases root
      | node color left item right =>
          have here : item.address = address := Option.some.inj root
          subst here
          have joined : Represents tree path (join .left color left item right) := held
          have lower : left.height ≤ fuel := by
            simp only [ColoredTree.height] at enough
            omega
          simp only [Iterator.descend, Tree.deref_of_held joined.node, Fallible.ok_bind,
            left_cell_left]
          cases left with
          | leaf => rfl
          | node _ _ leftItem _ =>
              have inner := ih ((represents_fill_iff _ ⟨.left, color, item, right⟩ _ _).mp joined)
                rfl lower
              exact inner

/-- The climb stops at the first node that was left to the left: its key is
the first one that is not below. -/
theorem climb_spec (fuel : Nat) {address : Nat} (held : Represents tree path shape)
    (sorted : Sorted Item.key (zip path shape)) (root : rootOf shape = some address)
    (start : Item Key Value) (member : start ∈ shape.inorder) (enough : path.length < fuel) :
    Iterator.climb tree start.key fuel (some address) =
      .ok (pointerTo (Cursor.climb path shape)) := by
  induction fuel generalizing path shape address with
  | zero => exact absurd enough (Nat.not_lt_zero _)
  | succ fuel ih =>
      obtain ⟨node, read, above, _⟩ := held.read_root root
      cases path with
      | nil =>
          simp only [Iterator.climb, read, Fallible.ok_bind, above, parentOf]
          rfl
      | cons frame outer =>
          obtain ⟨side, color, item, other⟩ := frame
          have joined := (represents_fill_iff _ _ _ _).mpr held
          simp only [Iterator.climb, read, Fallible.ok_bind, above, parentOf,
            Tree.deref_of_held joined.node, cell_key, tree.comparator.le_iff]
          cases side with
          | left =>
              have inside : Sorted Item.key (zip outer (.node color shape item other)) := sorted
              rw [if_pos (inside.node_parts.1 start member).le]
              rfl
          | right =>
              have inside : Sorted Item.key (zip outer (.node color other item shape)) := sorted
              rw [if_neg (not_le.mpr (inside.node_parts.2 start member))]
              have above : Represents tree outer (.node color other item shape) := joined
              have member' : start ∈ (ColoredTree.node color other item shape).inorder :=
                List.mem_append_right _ (List.mem_cons_of_mem _ member)
              have upper := ih above inside rfl member' (Nat.lt_of_succ_lt_succ enough)
              exact upper

theorem next_spec (fuel : Nat) {cursor : Cursor (Item Key Value)}
    (held : Represents tree [] cursor.whole) (sorted : Sorted Item.key cursor.whole)
    (enough : cursor.whole.height < fuel) :
    Iterator.next fuel tree ⟨some cursor.item.address, .between⟩ =
      .ok (Iterator.arrive (pointerTo cursor.next)) := by
  obtain ⟨path, color, left, item, right⟩ := cursor
  have heights := ColoredTree.length_add_height_le path (.node color left item right)
  have depth : path.length + 1 ≤ fuel ∧ right.height ≤ fuel := by
    simp only [Cursor.whole, Cursor.focus] at enough
    simp only [ColoredTree.height] at heights
    omega
  have focus := (represents_zip_iff _ _ _).mp held
  have joined : Represents tree path (join .left color left item right) := focus
  simp only [Iterator.next, Tree.deref_of_held joined.node, Fallible.ok_bind, left_cell_right,
    cell_key]
  cases right with
  | leaf =>
      have climbed := climb_spec fuel focus sorted rfl item
        (List.mem_append_right _ List.mem_cons_self) depth.1
      simp only [root_of_leaf]
      rw [climbed]
      rfl
  | node innerColor innerLeft innerItem innerRight =>
      have flipped : Represents tree path
          (join .right color (.node innerColor innerLeft innerItem innerRight) item left) := focus
      have descended := descend_spec fuel
        ((represents_fill_iff _ ⟨.right, color, item, left⟩ _ _).mp flipped) rfl depth.2
      simp only [root_of_node]
      rw [descended]
      rfl

theorem next_begin_spec (fuel : Nat) (held : Represents tree [] shape)
    (enough : shape.height < fuel) :
    Iterator.next fuel tree Iterator.new =
      .ok (Iterator.arrive (pointerTo (Cursor.first [] shape))) := by
  have leftmost := left_loop_spec fuel none held enough
  have root : tree.root = rootOf shape := held.root
  simp only [Iterator.next, Iterator.new, Tree.left, root, leftmost, Fallible.ok_bind]
  cases Cursor.first [] shape <;> rfl

section Each

variable {State : Type} (f : State → Key × Value → Except Fault State)

theorem each_loop_from (fuel rounds : Nat) (held : Represents tree [] shape)
    (sorted : Sorted Item.key shape) (enough : shape.height < fuel)
    (cursor : Option (Cursor (Item Key Value)))
    (inShape : ∀ found, cursor = some found → found.whole = shape) (iterator : Iterator)
    (moved : Iterator.next fuel tree iterator = .ok (Iterator.arrive (pointerTo cursor)))
    (room : (Cursor.ahead cursor).length < rounds) (state : State) :
    eachLoop tree fuel f rounds iterator state =
      ((Cursor.ahead cursor).map Item.entry).foldlM f state := by
  induction rounds generalizing cursor iterator state with
  | zero => exact absurd room (Nat.not_lt_zero _)
  | succ rounds ih =>
      cases cursor with
      | none =>
          simp only [eachLoop, moved, Fallible.ok_bind]
          rfl
      | some found =>
          have whole := inShape found rfl
          subst whole
          have member : found.item ∈ found.whole.inorder := by
            rw [found.inorder_whole]
            exact List.mem_append_right _ List.mem_cons_self
          obtain ⟨node, here, key, value⟩ := holds_item held.holds found.item member
          have again := ih found.next (fun other step => (Cursor.next_spec found other step).1)
            ⟨some found.item.address, .between⟩ (next_spec fuel held sorted enough)
            (by rw [← found.remaining_next]; simpa [Cursor.ahead] using room)
          rw [← found.remaining_next] at again
          simp only [eachLoop, moved, Fallible.ok_bind, pointerTo, Option.map_some,
            Iterator.arrive, Cursor.ahead, if_true, Tree.deref_of_held here, key, value, List.map_cons,
            List.foldlM_cons, Item.entry]
          exact congrArg (f state (found.item.key, found.item.value) >>= ·) (funext again)

/-- The loop over a fresh iterator meets every item once, from left to
right. -/
theorem each_loop_spec (fuel rounds : Nat) (held : Represents tree [] shape)
    (sorted : Sorted Item.key shape) (enough : shape.height < fuel)
    (room : shape.inorder.length < rounds) (state : State) :
    eachLoop tree fuel f rounds Iterator.new state =
      (shape.inorder.map Item.entry).foldlM f state := by
  rw [Cursor.inorder_first shape] at room ⊢
  exact each_loop_from f fuel rounds held sorted enough (Cursor.first [] shape)
    (fun found first => (Cursor.first_spec _ _ _ first).1) Iterator.new
    (next_begin_spec fuel held enough) room state

end Each

end WPerf.Treemap
