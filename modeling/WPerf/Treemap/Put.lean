import WPerf.Treemap.Insertion

/-!
# Put

`Put` on a tree in memory: the loop walks down as `search` does, a new node is
linked where it ends, and the tree that is represented afterwards is
`insertWith` of the one before.
-/

namespace WPerf.Treemap

open WPerf.Library WPerf.Analyzer
open WPerf.Library.ColoredTree (Color Side Frame Path Open Balanced join zip repair search)

set_option autoImplicit false

variable {Key Value : Type} [LinearOrder Key]

theorem new_node_same (tree : Tree Key Value) (key : Key) (value : Value) {address : Nat}
    (old : address < tree.nodes.length) :
    (tree.newNode key value).1.nodes[address]? = tree.nodes[address]? :=
  List.getElem?_append_left old

theorem new_node_here (tree : Tree Key Value) (key : Key) (value : Value) :
    (tree.newNode key value).1.nodes[tree.nodes.length]? =
      some ⟨key, value, .red, none, none, none⟩ :=
  List.getElem?_concat_length

def newItem (tree : Tree Key Value) (key : Key) (value : Value) : Item Key Value :=
  ⟨tree.nodes.length, key, value⟩

theorem attach_represents {tree : Tree Key Value} {parent : Frame (Item Key Value)}
    {outer : Path (Item Key Value)} (held : Represents tree (parent :: outer) .leaf)
    (key : Key) (value : Value) :
    ∃ linked attached,
      (tree.newNode key value).1.assign (some parent.item.address)
        (Node.setChild parent.side (some tree.nodes.length)) = .ok linked ∧
      linked.assign (some tree.nodes.length) (Node.setParent (some parent.item.address)) =
        .ok attached ∧
      Represents attached (parent :: outer) (.node .red .leaf (newItem tree key value) .leaf) ∧
      Kept tree attached := by
  have memory := (holds_zip _ _ _).mp held.holds
  obtain ⟨here, beside, above⟩ := memory.1
  have apart := (nodup_zip _ _).mp held.distinct
  have parts := (nodup_outside_cons _ _).mp apart.2.1
  have item := (nodup_join _ _ _ _ _).mp parts.1
  -- every node of the tree is older than the new one
  have older : ∀ address ∈ outside (parent :: outer), address < tree.nodes.length := by
    intro address member
    exact holds_bound held.holds address
      ((addresses_zip _ _).mem_iff.mpr (List.mem_append_right _ member))
  have parentOlder := older parent.item.address (by simp)
  have grownHere := (new_node_same tree key value parentOlder).trans here
  obtain ⟨linked, ranLink, linkedHere, linkedRoot, linkedKept, linkedSame⟩ :=
    assign_holds grownHere (Node.setChild parent.side (some tree.nodes.length))
  rw [cell_set_child] at linkedHere
  have linkedNew := (linkedSame _ (ne_of_gt parentOlder)).trans (new_node_here tree key value)
  obtain ⟨attached, ranAttach, attachedNew, attachedRoot, attachedKept, attachedSame⟩ :=
    assign_holds linkedNew (Node.setParent (some parent.item.address))
  have kept : ∀ address ∈ outside (parent :: outer), address ≠ parent.item.address →
      attached.nodes[address]? = tree.nodes[address]? := by
    intro address member different
    rw [attachedSame _ (ne_of_lt (older address member)), linkedSame _ different,
      new_node_same tree key value (older address member)]
  refine ⟨linked, attached, ranLink, ranAttach, ⟨?_, ?_, ?_⟩, ?_⟩
  · rw [attachedRoot, linkedRoot]
    refine held.root.trans ?_
    rw [root_of_zip, root_of_zip]
    rfl
  · refine (holds_zip _ _ _).mpr ⟨⟨?_, ?_, ?_⟩, ⟨attachedNew, trivial, trivial⟩⟩
    · exact (attachedSame _ (ne_of_lt parentOlder)).trans linkedHere
    · refine holds_congr beside fun address inside => kept address ?_ ?_
      · exact (mem_outside_cons _ _ _).mpr (Or.inr (Or.inl inside))
      · exact ne_of_mem_of_not_mem inside item.1.2
    · refine holds_path_congr above fun address beyond => kept address ?_ ?_
      · exact (mem_outside_cons _ _ _).mpr (Or.inr (Or.inr beyond))
      · rintro rfl
        exact parts.2.2 _ (by simp [Frame.fill]) beyond
  · refine (nodup_zip _ _).mpr ⟨by simp [addresses], apart.2.1, ?_⟩
    intro address inside member
    have isNew : address = tree.nodes.length := by simpa [addresses, newItem] using inside
    rw [isNew] at member
    exact lt_irrefl _ (older _ member)
  · exact ⟨attachedKept.size.trans linkedKept.size,
      attachedKept.comparator.trans linkedKept.comparator⟩

theorem overwrite_represents {tree : Tree Key Value} {path : Path (Item Key Value)}
    {color : Color} {left right : Shape Key Value} {item : Item Key Value}
    (held : Represents tree path (.node color left item right)) (key : Key) (value : Value) :
    ∃ first second,
      tree.assign (some item.address) (fun n => { n with key := key }) = .ok first ∧
      first.assign (some item.address) (fun n => { n with value := value }) = .ok second ∧
      Represents second path (.node color left ⟨item.address, key, value⟩ right) ∧
      Kept tree second := by
  have joined : Represents tree path (join .left color left item right) := held
  have firstHeld := joined.store_node color ⟨item.address, key, item.value⟩ rfl
  have secondHeld := firstHeld.store_node color ⟨item.address, key, value⟩ rfl
  exact ⟨_, _, Tree.assign_of_held joined.node _, Tree.assign_of_held firstHeld.node _, secondHeld,
    ⟨rfl, rfl⟩⟩

inductive PutLoopResult (tree : Tree Key Value) (key : Key) (value : Value)
    (found : Path (Item Key Value) × Shape Key Value) :
    Tree Key Value × Option (Pointer × Pointer) → Prop where
  | overwritten {path : Path (Item Key Value)} {color : Color} {left right : Shape Key Value}
      {item : Item Key Value} {after : Tree Key Value} :
      found = (path, .node color left item right) →
      Represents after path (.node color left ⟨item.address, key, value⟩ right) →
      Kept tree after → PutLoopResult tree key value found (after, none)
  | linked {parent : Frame (Item Key Value)} {outer : Path (Item Key Value)}
      {linked attached : Tree Key Value} :
      found = (parent :: outer, .leaf) →
      linked.assign (some tree.nodes.length) (Node.setParent (some parent.item.address)) =
        .ok attached →
      Represents attached (parent :: outer) (.node .red .leaf (newItem tree key value) .leaf) →
      Kept tree attached →
      PutLoopResult tree key value found
        (linked, some (some tree.nodes.length, some parent.item.address))

theorem put_loop_spec (key : Key) (value : Value) (fuel : Nat) {tree : Tree Key Value}
    {path : Path (Item Key Value)} {shape : Shape Key Value} {address : Nat}
    (held : Represents tree path shape) (root : rootOf shape = some address)
    (enough : shape.height ≤ fuel) :
    ∃ result, Tree.putLoop key value fuel tree (some address) = .ok result ∧
      PutLoopResult tree key value (search Item.key key path shape) result := by
  induction fuel generalizing path shape address with
  | zero =>
      cases shape with
      | leaf => cases root
      | node color left item right => simp [ColoredTree.height] at enough
  | succ fuel ih =>
      cases shape with
      | leaf => cases root
      | node color left item right =>
          have here : item.address = address := Option.some.inj root
          subst here
          have joined : Represents tree path (join .left color left item right) := held
          have read := Tree.deref_of_held joined.node
          have heights : left.height ≤ fuel ∧ right.height ≤ fuel := by
            simp only [ColoredTree.height] at enough
            omega
          unfold Tree.putLoop search
          simp only [read, Fallible.ok_bind, cell_key, left_cell_left, left_cell_right,
            tree.comparator.zero_iff, tree.comparator.neg_iff]
          by_cases same : key = item.key
          · rw [if_pos same, if_pos same]
            obtain ⟨first, second, ranFirst, ranSecond, result, kept⟩ :=
              overwrite_represents held key value
            refine ⟨(second, none), ?_, .overwritten rfl result kept⟩
            rw [ranFirst, Fallible.ok_bind, ranSecond]
            rfl
          · rw [if_neg same, if_neg same]
            by_cases less : key < item.key
            · rw [if_pos less, if_pos less]
              have inner : Represents tree (⟨.left, color, item, right⟩ :: path) left :=
                (represents_fill_iff _ ⟨_, _, _, _⟩ _ _).mp held
              cases left with
              | leaf =>
                  obtain ⟨linked, attached, ranLink, ranAttach, result, kept⟩ :=
                    attach_represents inner key value
                  refine ⟨_, ?_, .linked rfl ranAttach result kept⟩
                  have ran : (tree.newNode key value).1.assign (some item.address)
                      (Node.setChild .left (tree.newNode key value).2) = .ok linked := ranLink
                  simp only [rootOf, ran, Fallible.ok_bind]
                  rfl
              | node _ _ leftItem _ => exact ih inner rfl heights.1
            · rw [if_neg less, if_neg less]
              have inner : Represents tree (⟨.right, color, item, left⟩ :: path) right :=
                (represents_fill_iff _ ⟨_, _, _, _⟩ _ _).mp held
              cases right with
              | leaf =>
                  obtain ⟨linked, attached, ranLink, ranAttach, result, kept⟩ :=
                    attach_represents inner key value
                  refine ⟨_, ?_, .linked rfl ranAttach result kept⟩
                  have ran : (tree.newNode key value).1.assign (some item.address)
                      (Node.setChild .right (tree.newNode key value).2) = .ok linked := ranLink
                  simp only [rootOf, ran, Fallible.ok_bind]
                  rfl
              | node _ _ rightItem _ => exact ih inner rfl heights.2

/-- A node that has the key keeps its address. -/
def putItem (tree : Tree Key Value) (key : Key) (value : Value) :
    Option (Item Key Value) → Item Key Value
  | none => newItem tree key value
  | some item => ⟨item.address, key, value⟩

def putShape (tree : Tree Key Value) (key : Key) (value : Value) (shape : Shape Key Value) :
    Shape Key Value :=
  ColoredTree.insertWith Item.key key (putItem tree key value) shape

theorem put_finish_represents (fuel : Nat) {tree : Tree Key Value}
    {path : Path (Item Key Value)} {shape : Shape Key Value} {address n : Nat}
    (isOpen : Open n path) (enough : path.length < 2 * fuel) (held : Represents tree path shape)
    (root : rootOf shape = some address) :
    ∃ after, Tree.putFinish fuel tree (some address) = .ok after ∧
      Represents after [] (repair path shape) ∧ after.comparator = tree.comparator ∧
      after.size = tree.size + 1 := by
  obtain ⟨settled, ran, result, kept⟩ := insert_case1_represents fuel isOpen enough held root
  refine ⟨{ settled with size := settled.size + 1 }, ?_,
    ⟨result.root, result.holds, result.distinct⟩, kept.comparator, ?_⟩
  · rw [Tree.putFinish, ran]
    rfl
  · exact congrArg (· + 1) kept.size

/-- What every tree of the program satisfies between two operations. -/
structure Sound (tree : Tree Key Value) (shape : Shape Key Value) : Prop where
  held : Represents tree [] shape
  balanced : ∃ n, Balanced n shape
  isBlack : shape.color = .black
  size : tree.size = shape.inorder.length

theorem new_sound (comparator : Comparator Key) :
    Sound (Tree.newWith comparator : Tree Key Value) .leaf :=
  ⟨⟨rfl, trivial, List.nodup_nil⟩, ⟨0, .leaf⟩, rfl, rfl⟩

theorem put_empty_sound (fuel : Nat) {tree : Tree Key Value} (sound : Sound tree .leaf)
    (key : Key) (value : Value) (positive : 0 < fuel) :
    ∃ after, Tree.put fuel tree key value = .ok after ∧
      Sound after (putShape tree key value .leaf) ∧ after.comparator = tree.comparator := by
  have treeRoot : tree.root = none := sound.held.root
  have held : Represents { (tree.newNode key value).1 with root := some tree.nodes.length } []
      (.node .red .leaf (newItem tree key value) .leaf) :=
    ⟨rfl, ⟨new_node_here tree key value, trivial, trivial⟩, List.nodup_singleton _⟩
  obtain ⟨after, ran, result, comparator, size⟩ :=
    put_finish_represents fuel (.top 0) (by simpa using positive) held rfl
  refine ⟨after, ?_, ⟨result, ⟨1, .black _ .leaf .leaf⟩, rfl, ?_⟩, comparator⟩
  · rw [Tree.put, treeRoot]
    exact ran
  · exact size.trans (congrArg (· + 1) sound.size)

/-- `Put` never fails, and inserts into the tree that is represented. -/
theorem put_sound (fuel : Nat) {tree : Tree Key Value} {shape : Shape Key Value}
    (sound : Sound tree shape) (key : Key) (value : Value)
    (enough : shape.height ≤ fuel) (positive : 0 < fuel) :
    ∃ after, Tree.put fuel tree key value = .ok after ∧
      Sound after (putShape tree key value shape) ∧ after.comparator = tree.comparator := by
  obtain ⟨n, balanced⟩ := sound.balanced
  have stays := ColoredTree.insert_with_balanced Item.key key (putItem tree key value) balanced
    sound.isBlack
  cases root : rootOf shape with
  | none =>
      cases shape with
      | node => cases root
      | leaf => exact put_empty_sound fuel sound key value positive
  | some address =>
      have treeRoot : tree.root = some address := sound.held.root.trans root
      obtain ⟨result, ran, spec⟩ := put_loop_spec key value fuel sound.held root enough
      have depth := ColoredTree.search_depth Item.key key [] shape
      have whole := ColoredTree.zip_search Item.key key [] shape
      have admitted : ColoredTree.Admits ([] : Path (Item Key Value)) shape.color := by
        rw [sound.isBlack]
        exact ColoredTree.admits_black _
      obtain ⟨m, isOpen, _, _⟩ := ColoredTree.search_open Item.key key (.top n) balanced admitted
      cases spec with
      | @overwritten path color left right item after found result kept =>
          have shaped : putShape tree key value shape =
              zip path (.node color left ⟨item.address, key, value⟩ right) := by
            rw [putShape, ColoredTree.insertWith, found]
            rfl
          refine ⟨after, ?_, ⟨?_, stays.imp fun _ both => both.1, stays.choose_spec.2, ?_⟩,
            kept.comparator⟩
          · simp only [Tree.put, treeRoot, ran, Fallible.ok_bind]
            rfl
          · rw [shaped]
            exact (represents_zip_iff _ _ _).mpr result
          · rw [found] at whole
            rw [kept.size, sound.size, shaped, ← ColoredTree.zip_nil shape, ← whole,
              ColoredTree.inorder_zip, ColoredTree.inorder_zip]
            simp
      | @linked parent outer linked attached found ranAttach result kept =>
          rw [found] at whole isOpen depth
          have shaped : putShape tree key value shape =
              repair (parent :: outer) (.node .red .leaf (newItem tree key value) .leaf) := by
            rw [putShape, ColoredTree.insertWith, found]
            rfl
          obtain ⟨after, ranFinish, finished, comparator, size⟩ := put_finish_represents fuel isOpen
            (by simp only [List.length_cons, List.length_nil, ColoredTree.height] at depth ⊢; omega)
            result rfl
          refine ⟨after, ?_, ⟨?_, stays.imp fun _ both => both.1, stays.choose_spec.2, ?_⟩,
            comparator.trans kept.comparator⟩
          · simp only [Tree.put, treeRoot, ran, Fallible.ok_bind, ranAttach]
            exact ranFinish
          · rw [shaped]
            exact finished
          · rw [size, kept.size, sound.size, shaped, ColoredTree.inorder_repair,
              ← ColoredTree.zip_nil shape, ← whole, ColoredTree.inorder_zip,
              ColoredTree.inorder_zip]
            simp only [ColoredTree.inorder_leaf, ColoredTree.inorder_node, List.length_append,
              List.length_cons, List.length_nil]
            omega

end WPerf.Treemap
