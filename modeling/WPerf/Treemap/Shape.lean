import WPerf.Library.Fallible
import WPerf.Library.SearchTree
import WPerf.Treemap.Redblacktree

/-!
# Trees in memory

What the nodes of a list must hold to be a given tree: `Holds` for a subtree
below a parent, `HoldsPath` for the nodes above a hole. `Represents` says that
a tree of the program is a path and a subtree, with every node at an address of
its own. Moving along the path does not change what is represented.
-/

namespace WPerf.Treemap

open WPerf.Library WPerf.Analyzer
open WPerf.Library.ColoredTree (Color Side Frame Path join zip before after)

set_option autoImplicit false

structure Item (Key Value : Type) where
  address : Nat
  key : Key
  value : Value
deriving DecidableEq, Repr

abbrev Shape (Key Value : Type) := ColoredTree (Item Key Value)

variable {Key Value : Type}

def Item.entry (item : Item Key Value) : Key × Value := (item.key, item.value)

def rootOf : Shape Key Value → Pointer
  | .leaf => none
  | .node _ _ item _ => some item.address

def cell (side : Side) (color : Color) (inner : Pointer) (item : Item Key Value)
    (other parent : Pointer) : Node Key Value :=
  match side with
  | .left => ⟨item.key, item.value, color, inner, other, parent⟩
  | .right => ⟨item.key, item.value, color, other, inner, parent⟩

section Cell

variable (side : Side) (color : Color) (inner other parent pointer : Pointer)
  (item : Item Key Value)

@[simp] theorem cell_key : (cell side color inner item other parent).key = item.key := by
  cases side <;> rfl

@[simp] theorem cell_color : (cell side color inner item other parent).color = color := by
  cases side <;> rfl

@[simp] theorem cell_parent : (cell side color inner item other parent).parent = parent := by
  cases side <;> rfl

@[simp] theorem cell_child : (cell side color inner item other parent).child side = inner := by
  cases side <;> rfl

@[simp] theorem cell_child_other :
    (cell side color inner item other parent).child side.other = other := by
  cases side <;> rfl

@[simp] theorem cell_set_child :
    (cell side color inner item other parent).setChild side pointer =
      cell side color pointer item other parent := by
  cases side <;> rfl

@[simp] theorem cell_set_parent :
    (cell side color inner item other parent).setParent pointer =
      cell side color inner item other pointer := by
  cases side <;> rfl

@[simp] theorem cell_set_color (new : Color) :
    (cell side color inner item other parent).setColor new =
      cell side new inner item other parent := by
  cases side <;> rfl

@[simp] theorem left_cell_left :
    (cell .left color inner item other parent).left = inner := rfl

@[simp] theorem left_cell_right :
    (cell .left color inner item other parent).right = other := rfl

@[simp] theorem right_cell_left :
    (cell .right color inner item other parent).left = other := rfl

@[simp] theorem right_cell_right :
    (cell .right color inner item other parent).right = inner := rfl

end Cell

/-- The subtree is in memory, below `parent`. -/
def Holds (nodes : List (Node Key Value)) (parent : Pointer) : Shape Key Value → Prop
  | .leaf => True
  | .node color left item right =>
      nodes[item.address]? = some (cell .left color (rootOf left) item (rootOf right) parent) ∧
        Holds nodes (some item.address) left ∧ Holds nodes (some item.address) right

def parentOf : Path (Item Key Value) → Pointer
  | [] => none
  | frame :: _ => some frame.item.address

def topOf : Path (Item Key Value) → Pointer → Pointer
  | [], hole => hole
  | frame :: outer, _ => topOf outer (some frame.item.address)

/-- The nodes of the path and beside it are in memory, above `hole`. -/
def HoldsPath (nodes : List (Node Key Value)) (hole : Pointer) : Path (Item Key Value) → Prop
  | [] => True
  | frame :: outer =>
      nodes[frame.item.address]? = some (cell frame.side frame.color hole frame.item
          (rootOf frame.other) (parentOf outer)) ∧
        Holds nodes (some frame.item.address) frame.other ∧
        HoldsPath nodes (some frame.item.address) outer

@[simp] theorem root_of_leaf : rootOf (.leaf : Shape Key Value) = none := rfl

@[simp] theorem root_of_node (color : Color) (left right : Shape Key Value)
    (item : Item Key Value) : rootOf (.node color left item right) = some item.address := rfl

@[simp] theorem root_of_join (side : Side) (color : Color) (inner other : Shape Key Value)
    (item : Item Key Value) : rootOf (join side color inner item other) = some item.address := by
  cases side <;> rfl

theorem root_of_zip (path : Path (Item Key Value)) (shape : Shape Key Value) :
    rootOf (zip path shape) = topOf path (rootOf shape) := by
  induction path generalizing shape with
  | nil => rfl
  | cons frame outer ih =>
      rw [ColoredTree.zip_cons, ih, Frame.fill, root_of_join]
      rfl

theorem holds_join (nodes : List (Node Key Value)) (parent : Pointer) (side : Side)
    (color : Color) (inner other : Shape Key Value) (item : Item Key Value) :
    Holds nodes parent (join side color inner item other) ↔
      nodes[item.address]? =
          some (cell side color (rootOf inner) item (rootOf other) parent) ∧
        Holds nodes (some item.address) inner ∧ Holds nodes (some item.address) other := by
  cases side with
  | left => rfl
  | right => exact and_congr_right fun _ => and_comm

theorem holds_zip (nodes : List (Node Key Value)) (path : Path (Item Key Value))
    (shape : Shape Key Value) :
    Holds nodes none (zip path shape) ↔
      HoldsPath nodes (rootOf shape) path ∧ Holds nodes (parentOf path) shape := by
  induction path generalizing shape with
  | nil => exact ⟨fun holds => ⟨trivial, holds⟩, fun both => both.2⟩
  | cons frame outer ih =>
      rw [ColoredTree.zip_cons, ih, Frame.fill, root_of_join, holds_join]
      constructor
      · rintro ⟨above, here, inner, other⟩
        exact ⟨⟨here, other, above⟩, inner⟩
      · rintro ⟨⟨here, other, above⟩, inner⟩
        exact ⟨above, here, inner, other⟩

def addresses (shape : Shape Key Value) : List Nat := shape.inorder.map Item.address

def outside (path : Path (Item Key Value)) : List Nat :=
  (before path ++ after path).map Item.address

@[simp] theorem mem_addresses_node (address : Nat) (color : Color) (left right : Shape Key Value)
    (item : Item Key Value) :
    address ∈ addresses (.node color left item right) ↔
      address ∈ addresses left ∨ address = item.address ∨ address ∈ addresses right := by
  simp [addresses, eq_comm]

@[simp] theorem mem_addresses_join (address : Nat) (side : Side) (color : Color)
    (inner other : Shape Key Value) (item : Item Key Value) :
    address ∈ addresses (join side color inner item other) ↔
      address = item.address ∨ address ∈ addresses inner ∨ address ∈ addresses other := by
  cases side <;> simp only [join, mem_addresses_node] <;> tauto

@[simp] theorem mem_outside_cons (address : Nat) (frame : Frame (Item Key Value))
    (outer : Path (Item Key Value)) :
    address ∈ outside (frame :: outer) ↔
      address = frame.item.address ∨ address ∈ addresses frame.other ∨ address ∈ outside outer := by
  cases side : frame.side <;>
    simp only [outside, before, after, addresses, side, List.map_append, List.map_cons,
      List.map_nil, List.append_nil, List.nil_append, List.mem_append, List.mem_cons,
      List.not_mem_nil] <;>
    tauto

theorem root_mem_addresses {shape : Shape Key Value} {address : Nat}
    (root : rootOf shape = some address) : address ∈ addresses shape := by
  cases shape with
  | leaf => cases root
  | node color left item right =>
      rw [mem_addresses_node]
      exact Or.inr (Or.inl (Option.some.inj root).symm)

theorem addresses_zip (path : Path (Item Key Value)) (shape : Shape Key Value) :
    (addresses (zip path shape)).Perm (addresses shape ++ outside path) := by
  rw [addresses, addresses, outside, ColoredTree.inorder_zip, List.append_assoc,
    ← List.map_append]
  refine List.Perm.map _ ?_
  rw [← List.append_assoc, ← List.append_assoc]
  exact List.perm_append_comm.append_right _

theorem nodup_zip (path : Path (Item Key Value)) (shape : Shape Key Value) :
    (addresses (zip path shape)).Nodup ↔
      (addresses shape).Nodup ∧ (outside path).Nodup ∧
        ∀ address ∈ addresses shape, address ∉ outside path := by
  rw [(addresses_zip path shape).nodup_iff, List.nodup_append]
  refine and_congr_right fun _ => and_congr_right fun _ => ?_
  constructor
  · exact fun apart address inside beside => apart address inside address beside rfl
  · rintro apart address inside other beside rfl
    exact apart address inside beside

theorem nodup_outside_cons (frame : Frame (Item Key Value)) (outer : Path (Item Key Value)) :
    (outside (frame :: outer)).Nodup ↔
      (addresses (frame.fill .leaf)).Nodup ∧ (outside outer).Nodup ∧
        ∀ address ∈ addresses (frame.fill .leaf), address ∉ outside outer := by
  rw [← nodup_zip]
  refine List.Perm.nodup_iff ?_
  exact ((addresses_zip (frame :: outer) .leaf).trans (List.Perm.refl _)).symm

theorem nodup_join (side : Side) (color : Color) (inner other : Shape Key Value)
    (item : Item Key Value) :
    (addresses (join side color inner item other)).Nodup ↔
      (item.address ∉ addresses inner ∧ item.address ∉ addresses other) ∧
        (addresses inner).Nodup ∧ (addresses other).Nodup ∧
          ∀ address ∈ addresses inner, address ∉ addresses other := by
  have parts : (addresses (join side color inner item other)).Perm
      (item.address :: (addresses inner ++ addresses other)) := by
    cases side with
    | left =>
        rw [addresses, join, ColoredTree.inorder_node, List.map_append]
        exact List.perm_middle
    | right =>
        simpa [addresses, join] using
          List.perm_middle.trans (List.perm_append_comm.cons _)
  rw [parts.nodup_iff, List.nodup_cons, List.nodup_append, List.mem_append, not_or]
  refine and_congr_right fun _ => and_congr_right fun _ => and_congr_right fun _ => ?_
  constructor
  · exact fun apart address inside beside => apart address inside address beside rfl
  · rintro apart address inside second beside rfl
    exact apart address inside beside

theorem holds_congr {nodes changed : List (Node Key Value)} {parent : Pointer}
    {shape : Shape Key Value} (holds : Holds nodes parent shape)
    (same : ∀ address ∈ addresses shape, changed[address]? = nodes[address]?) :
    Holds changed parent shape := by
  induction shape generalizing parent with
  | leaf => trivial
  | node color left item right leftIh rightIh =>
      obtain ⟨here, leftHolds, rightHolds⟩ := holds
      simp only [mem_addresses_node] at same
      refine ⟨?_, leftIh leftHolds ?_, rightIh rightHolds ?_⟩
      · rw [same _ (Or.inr (Or.inl rfl))]
        exact here
      · exact fun address inside => same address (Or.inl inside)
      · exact fun address inside => same address (Or.inr (Or.inr inside))

theorem holds_path_congr {nodes changed : List (Node Key Value)} {hole : Pointer}
    {path : Path (Item Key Value)} (holds : HoldsPath nodes hole path)
    (same : ∀ address ∈ outside path, changed[address]? = nodes[address]?) :
    HoldsPath changed hole path := by
  induction path generalizing hole with
  | nil => trivial
  | cons frame outer ih =>
      obtain ⟨here, beside, above⟩ := holds
      simp only [mem_outside_cons] at same
      refine ⟨?_, holds_congr beside ?_, ih above ?_⟩
      · rw [same _ (Or.inl rfl)]
        exact here
      · exact fun address inside => same address (Or.inr (Or.inl inside))
      · exact fun address inside => same address (Or.inr (Or.inr inside))

theorem holds_bound {nodes : List (Node Key Value)} {parent : Pointer} {shape : Shape Key Value}
    (holds : Holds nodes parent shape) : ∀ address ∈ addresses shape, address < nodes.length := by
  induction shape generalizing parent with
  | leaf => exact fun _ inside => absurd inside List.not_mem_nil
  | node color left item right leftIh rightIh =>
      intro address inside
      rcases (mem_addresses_node _ _ _ _ _).mp inside with inLeft | rfl | inRight
      · exact leftIh holds.2.1 address inLeft
      · exact (List.getElem?_eq_some_iff.mp holds.1).1
      · exact rightIh holds.2.2 address inRight

theorem holds_item {nodes : List (Node Key Value)} {parent : Pointer} {shape : Shape Key Value}
    (holds : Holds nodes parent shape) (item : Item Key Value) (member : item ∈ shape.inorder) :
    ∃ node, nodes[item.address]? = some node ∧ node.key = item.key ∧ node.value = item.value := by
  induction shape generalizing parent with
  | leaf => cases member
  | node color left here right leftIh rightIh =>
      rcases List.mem_append.mp member with inLeft | rest
      · exact leftIh holds.2.1 inLeft
      · rcases List.mem_cons.mp rest with rfl | inRight
        · exact ⟨_, holds.1, rfl, rfl⟩
        · exact rightIh holds.2.2 inRight

variable [LinearOrder Key]

/-- The tree is the subtree at the end of the path, and all its nodes are
different ones. -/
structure Represents (tree : Tree Key Value) (path : Path (Item Key Value))
    (shape : Shape Key Value) : Prop where
  root : tree.root = rootOf (zip path shape)
  holds : Holds tree.nodes none (zip path shape)
  distinct : (addresses (zip path shape)).Nodup

/-- Moving down or up changes nothing. -/
theorem represents_fill_iff (tree : Tree Key Value) (frame : Frame (Item Key Value))
    (outer : Path (Item Key Value)) (shape : Shape Key Value) :
    Represents tree outer (frame.fill shape) ↔ Represents tree (frame :: outer) shape :=
  ⟨fun held => ⟨held.root, held.holds, held.distinct⟩,
    fun held => ⟨held.root, held.holds, held.distinct⟩⟩

theorem represents_zip_iff (tree : Tree Key Value) (path : Path (Item Key Value))
    (shape : Shape Key Value) :
    Represents tree [] (zip path shape) ↔ Represents tree path shape :=
  ⟨fun held => ⟨held.root, held.holds, held.distinct⟩,
    fun held => ⟨held.root, held.holds, held.distinct⟩⟩

theorem Represents.node {tree : Tree Key Value} {path : Path (Item Key Value)} {side : Side}
    {color : Color} {inner other : Shape Key Value} {item : Item Key Value}
    (held : Represents tree path (join side color inner item other)) :
    tree.nodes[item.address]? =
      some (cell side color (rootOf inner) item (rootOf other) (parentOf path)) :=
  ((holds_join _ _ _ _ _ _ _).mp ((holds_zip _ _ _).mp held.holds).2).1

namespace Tree

theorem deref_of_held {tree : Tree Key Value} {address : Nat} {node : Node Key Value}
    (held : tree.nodes[address]? = some node) : tree.deref (some address) = .ok node := by
  rw [deref, Option.bind_some, held]

theorem assign_of_held {tree : Tree Key Value} {address : Nat} {node : Node Key Value}
    (held : tree.nodes[address]? = some node) (change : Node Key Value → Node Key Value) :
    tree.assign (some address) change = .ok (tree.store address (change node)) := by
  rw [assign, deref_of_held held]
  rfl

@[simp] theorem store_root (tree : Tree Key Value) (address : Nat) (node : Node Key Value) :
    (tree.store address node).root = tree.root := rfl

theorem store_nodes_self {tree : Tree Key Value} {address : Nat} {old : Node Key Value}
    (held : tree.nodes[address]? = some old) (node : Node Key Value) :
    (tree.store address node).nodes[address]? = some node := by
  obtain ⟨bound, _⟩ := List.getElem?_eq_some_iff.mp held
  exact List.getElem?_set_self bound

theorem store_nodes_ne {tree : Tree Key Value} {address other : Nat} (node : Node Key Value)
    (different : other ≠ address) :
    (tree.store address node).nodes[other]? = tree.nodes[other]? :=
  List.getElem?_set_ne (Ne.symm different)

end Tree

end WPerf.Treemap
