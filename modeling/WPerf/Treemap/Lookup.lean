import WPerf.Treemap.Put

/-!
# Lookups

The loops of `lookup`, `Floor` and `Ceiling` walk down as `search` does and
return the node where it ends, or the last node left on the right or on the
left.
-/

namespace WPerf.Treemap

open WPerf.Library WPerf.Analyzer
open WPerf.Library.ColoredTree (Color Side Frame Path join zip search nearest)

set_option autoImplicit false

variable {Key Value : Type} [LinearOrder Key]

/-- The node of the key, or else the last one that was remembered on the way
to the leaf. -/
def remembered (remembers : Side → Bool) (found : Path (Item Key Value) × Shape Key Value) :
    Option (Item Key Value) :=
  match found.2 with
  | .leaf => (found.1.find? fun frame => remembers frame.side).map Frame.item
  | .node _ _ item _ => some item

variable {tree : Tree Key Value} {path : Path (Item Key Value)} {shape : Shape Key Value}

theorem walk_loop_spec (key : Key) (remembers : Side → Bool) (fuel : Nat)
    (held : Represents tree path shape) (enough : shape.height < fuel) :
    tree.walkLoop key remembers fuel
        ((path.find? fun frame => remembers frame.side).map fun frame => frame.item.address)
        (rootOf shape) =
      .ok ((remembered remembers (search Item.key key path shape)).map Item.address) := by
  induction fuel generalizing path shape with
  | zero => exact absurd enough (Nat.not_lt_zero _)
  | succ fuel ih =>
      cases shape with
      | leaf =>
          simp only [root_of_leaf, Tree.walkLoop, search, remembered, Option.map_map]
          rfl
      | node color left item right =>
          have joined : Represents tree path (join .left color left item right) := held
          have heights : left.height < fuel ∧ right.height < fuel := by
            simp only [ColoredTree.height] at enough
            omega
          unfold search
          simp only [root_of_node, Tree.walkLoop, Tree.deref_of_held joined.node, Fallible.ok_bind,
            cell_key, left_cell_left, left_cell_right, tree.comparator.zero_iff,
            tree.comparator.neg_iff]
          by_cases same : key = item.key
          · rw [if_pos same, if_pos same]
            rfl
          · rw [if_neg same, if_neg same]
            by_cases less : key < item.key
            · rw [if_pos less, if_pos less]
              have step := ih ((represents_fill_iff _ ⟨.left, color, item, right⟩ _ _).mp joined)
                heights.1
              rw [List.find?_cons] at step
              cases kept : remembers .left <;> simpa [kept] using step
            · have flipped : Represents tree path (join .right color right item left) := held
              rw [if_neg less, if_neg less]
              have step := ih ((represents_fill_iff _ ⟨.right, color, item, left⟩ _ _).mp flipped)
                heights.2
              rw [List.find?_cons] at step
              cases kept : remembers .right <;> simpa [kept] using step

end WPerf.Treemap
