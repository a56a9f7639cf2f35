import WPerf.Library.ColoredTree
import WPerf.Analyzer.Process

/-!
# The vendored red-black tree

`trees/redblacktree` of the vendored `gods` package, as far as `treemap` and
the analyzer use it. Nodes live in a list and a pointer is an index into it, so
a new node is appended. A read or a write through nil is an error of the model.
Loops and the recursion of `insertCase1` take fuel.
-/

namespace WPerf.Treemap

open WPerf.Library WPerf.Analyzer
open WPerf.Library.ColoredTree (Color Side)

set_option autoImplicit false

/-- A comparator's result is zero at equal keys and negative below. -/
structure Comparator (Key : Type) [LinearOrder Key] where
  compare : Key → Key → Int
  zero_iff : ∀ first second, compare first second = 0 ↔ first = second
  neg_iff : ∀ first second, compare first second < 0 ↔ first < second

theorem Comparator.le_iff {Key : Type} [LinearOrder Key] (comparator : Comparator Key)
    (first second : Key) : comparator.compare first second ≤ 0 ↔ first ≤ second := by
  rw [le_iff_lt_or_eq, le_iff_lt_or_eq, comparator.neg_iff, comparator.zero_iff]

def uint64Comparator : Comparator UInt64 where
  compare a b := if b < a then 1 else if a < b then -1 else 0
  zero_iff a b := by
    split_ifs with greater less
    · simp [ne_of_gt greater]
    · simp [ne_of_lt less]
    · simp [le_antisymm (not_lt.mp greater) (not_lt.mp less)]
  neg_iff a b := by
    split_ifs with greater less
    · simp [not_lt_of_gt greater]
    · simp [less]
    · simp [less]

abbrev Pointer := Option Nat

structure Node (Key Value : Type) where
  key : Key
  value : Value
  color : Color
  left : Pointer
  right : Pointer
  parent : Pointer
deriving DecidableEq, Repr

def Node.child {Key Value : Type} (side : Side) (node : Node Key Value) : Pointer :=
  match side with
  | .left => node.left
  | .right => node.right

def Node.setChild {Key Value : Type} (side : Side) (pointer : Pointer) (node : Node Key Value) :
    Node Key Value :=
  match side with
  | .left => { node with left := pointer }
  | .right => { node with right := pointer }

def Node.setParent {Key Value : Type} (pointer : Pointer) (node : Node Key Value) :
    Node Key Value :=
  { node with parent := pointer }

def Node.setColor {Key Value : Type} (color : Color) (node : Node Key Value) : Node Key Value :=
  { node with color := color }

structure Tree (Key Value : Type) [LinearOrder Key] where
  root : Pointer
  size : Nat
  comparator : Comparator Key
  nodes : List (Node Key Value)

namespace Tree

variable {Key Value : Type} [LinearOrder Key]

def newWith (comparator : Comparator Key) : Tree Key Value := ⟨none, 0, comparator, []⟩

def deref (tree : Tree Key Value) (pointer : Pointer) : Except Fault (Node Key Value) :=
  match pointer.bind fun address => tree.nodes[address]? with
  | none => .error .nilDereference
  | some node => .ok node

def store (tree : Tree Key Value) (address : Nat) (node : Node Key Value) : Tree Key Value :=
  { tree with nodes := tree.nodes.set address node }

def assign (tree : Tree Key Value) (pointer : Pointer)
    (change : Node Key Value → Node Key Value) : Except Fault (Tree Key Value) := do
  let node ← tree.deref pointer
  match pointer with
  | none => throw .nilDereference
  | some address => return tree.store address (change node)

def newNode (tree : Tree Key Value) (key : Key) (value : Value) : Tree Key Value × Pointer :=
  ({ tree with nodes := tree.nodes ++ [⟨key, value, .red, none, none, none⟩] },
    some tree.nodes.length)

def nodeColor (tree : Tree Key Value) (node : Pointer) : Except Fault Color :=
  match node with
  | none => return .black
  | some _ => return (← tree.deref node).color

def grandparent (tree : Tree Key Value) (node : Pointer) : Except Fault Pointer :=
  match node with
  | none => return none
  | some _ => do
      match (← tree.deref node).parent with
      | none => return none
      | some parent => return (← tree.deref (some parent)).parent

def sibling (tree : Tree Key Value) (node : Pointer) : Except Fault Pointer :=
  match node with
  | none => return none
  | some _ => do
      match (← tree.deref node).parent with
      | none => return none
      | some parent =>
          let parent ← tree.deref (some parent)
          if node = parent.left then return parent.right else return parent.left

def uncle (tree : Tree Key Value) (node : Pointer) : Except Fault Pointer :=
  match node with
  | none => return none
  | some _ => do
      match (← tree.deref node).parent with
      | none => return none
      | some parent =>
          match (← tree.deref (some parent)).parent with
          | none => return none
          | some _ => tree.sibling (some parent)

def adopt (tree : Tree Key Value) (child parent : Pointer) : Except Fault (Tree Key Value) :=
  match child with
  | none => return tree
  | some _ => tree.assign child (Node.setParent parent)

/-- The first statement of `replaceNode`, with the old node's parent read. -/
def replaceBelow (tree : Tree Key Value) (parent old new : Pointer) :
    Except Fault (Tree Key Value) :=
  match parent with
  | none => return { tree with root := new }
  | some _ => do
      if old = (← tree.deref parent).left then tree.assign parent (Node.setChild .left new)
      else tree.assign parent (Node.setChild .right new)

def replaceNode (tree : Tree Key Value) (old new : Pointer) :
    Except Fault (Tree Key Value) := do
  let tree ← tree.replaceBelow (← tree.deref old).parent old new
  tree.adopt new (← tree.deref old).parent

/-- The two rotations differ in the sides only. -/
def rotate (side : Side) (tree : Tree Key Value) (node : Pointer) :
    Except Fault (Tree Key Value) := do
  let lifted := (← tree.deref node).child side.other
  let tree ← tree.replaceNode node lifted
  let tree ← tree.assign node (Node.setChild side.other ((← tree.deref lifted).child side))
  let tree ← tree.adopt ((← tree.deref lifted).child side) node
  let tree ← tree.assign lifted (Node.setChild side node)
  tree.assign node (Node.setParent lifted)

def rotateLeft (tree : Tree Key Value) (node : Pointer) : Except Fault (Tree Key Value) :=
  rotate .left tree node

def rotateRight (tree : Tree Key Value) (node : Pointer) : Except Fault (Tree Key Value) :=
  rotate .right tree node

/-- `node` is its parent's child on the side `lower` and the parent is the
grandparent's on the side `upper`. As with `&&`, the grandparent is read only
if the first holds. -/
def placed (tree : Tree Key Value) (node grandparent : Pointer) (lower upper : Side) :
    Except Fault Bool := do
  let parent := (← tree.deref node).parent
  if node = (← tree.deref parent).child lower then
    return parent = (← tree.deref grandparent).child upper
  else return false

def insertCase5 (tree : Tree Key Value) (node : Pointer) : Except Fault (Tree Key Value) := do
  let tree ← tree.assign (← tree.deref node).parent (Node.setColor .black)
  let grandparent ← tree.grandparent node
  let tree ← tree.assign grandparent (Node.setColor .red)
  if ← tree.placed node grandparent .left .left then tree.rotateRight grandparent
  else if ← tree.placed node grandparent .right .right then tree.rotateLeft grandparent
  else return tree

def insertCase4 (tree : Tree Key Value) (node : Pointer) : Except Fault (Tree Key Value) := do
  let grandparent ← tree.grandparent node
  if ← tree.placed node grandparent .right .left then
    let tree ← tree.rotateLeft (← tree.deref node).parent
    tree.insertCase5 (← tree.deref node).left
  else if ← tree.placed node grandparent .left .right then
    let tree ← tree.rotateRight (← tree.deref node).parent
    tree.insertCase5 (← tree.deref node).right
  else tree.insertCase5 node

def insertCase3 (insertCase1 : Tree Key Value → Pointer → Except Fault (Tree Key Value))
    (tree : Tree Key Value) (node : Pointer) : Except Fault (Tree Key Value) := do
  let uncle ← tree.uncle node
  if (← tree.nodeColor uncle) = .red then
    let tree ← tree.assign (← tree.deref node).parent (Node.setColor .black)
    let tree ← tree.assign uncle (Node.setColor .black)
    let tree ← tree.assign (← tree.grandparent node) (Node.setColor .red)
    insertCase1 tree (← tree.grandparent node)
  else tree.insertCase4 node

def insertCase2 (insertCase1 : Tree Key Value → Pointer → Except Fault (Tree Key Value))
    (tree : Tree Key Value) (node : Pointer) : Except Fault (Tree Key Value) := do
  if (← tree.nodeColor (← tree.deref node).parent) = .black then return tree
  else tree.insertCase3 insertCase1 node

def insertCase1 : Nat → Tree Key Value → Pointer → Except Fault (Tree Key Value)
  | 0, _, _ => throw .outOfFuel
  | fuel + 1, tree, node => do
      if (← tree.deref node).parent = none then tree.assign node (Node.setColor .black)
      else tree.insertCase2 (insertCase1 fuel) node

/-- The loop of `Put`. It stops at a node with the key, which it overwrites, or
with a new child of the node it has reached. -/
def putLoop (key : Key) (value : Value) :
    Nat → Tree Key Value → Pointer → Except Fault (Tree Key Value × Option (Pointer × Pointer))
  | 0, _, _ => throw .outOfFuel
  | fuel + 1, tree, node => do
      let compare := tree.comparator.compare key (← tree.deref node).key
      if compare = 0 then
        let tree ← tree.assign node fun n => { n with key := key }
        let tree ← tree.assign node fun n => { n with value := value }
        return (tree, none)
      else if compare < 0 then
        match (← tree.deref node).left with
        | none =>
            let (tree, insertedNode) := tree.newNode key value
            let tree ← tree.assign node (Node.setChild .left insertedNode)
            return (tree, some (insertedNode, node))
        | some left => putLoop key value fuel tree (some left)
      else
        match (← tree.deref node).right with
        | none =>
            let (tree, insertedNode) := tree.newNode key value
            let tree ← tree.assign node (Node.setChild .right insertedNode)
            return (tree, some (insertedNode, node))
        | some right => putLoop key value fuel tree (some right)

def putFinish (fuel : Nat) (tree : Tree Key Value) (insertedNode : Pointer) :
    Except Fault (Tree Key Value) := do
  let tree ← insertCase1 fuel tree insertedNode
  return { tree with size := tree.size + 1 }

def put (fuel : Nat) (tree : Tree Key Value) (key : Key) (value : Value) :
    Except Fault (Tree Key Value) :=
  match tree.root with
  | none =>
      let (tree, insertedNode) := tree.newNode key value
      putFinish fuel { tree with root := insertedNode } insertedNode
  | some _ => do
      match ← putLoop key value fuel tree tree.root with
      | (tree, none) => return tree
      | (tree, some (insertedNode, node)) =>
          let tree ← tree.assign insertedNode (Node.setParent node)
          putFinish fuel tree insertedNode

/-- The loop of `lookup`, `Floor` and `Ceiling`. They differ in the steps on
which they remember the node that they leave. `Floor` and `Ceiling` set `found`
with the remembered node, so it is whether there is one. -/
def walkLoop (tree : Tree Key Value) (key : Key) (remembers : Side → Bool) :
    Nat → Pointer → Pointer → Except Fault Pointer
  | 0, _, _ => throw .outOfFuel
  | fuel + 1, remembered, node =>
      match node with
      | none => return remembered
      | some _ => do
          let compare := tree.comparator.compare key (← tree.deref node).key
          if compare = 0 then return node
          else if compare < 0 then
            tree.walkLoop key remembers fuel (if remembers .left then node else remembered)
              (← tree.deref node).left
          else
            tree.walkLoop key remembers fuel (if remembers .right then node else remembered)
              (← tree.deref node).right

def lookup (fuel : Nat) (tree : Tree Key Value) (key : Key) : Except Fault Pointer :=
  tree.walkLoop key (fun _ => false) fuel none tree.root

def floor (fuel : Nat) (tree : Tree Key Value) (key : Key) : Except Fault Pointer :=
  tree.walkLoop key (fun side => side = .right) fuel none tree.root

def ceiling (fuel : Nat) (tree : Tree Key Value) (key : Key) : Except Fault Pointer :=
  tree.walkLoop key (fun side => side = .left) fuel none tree.root

def get (fuel : Nat) (tree : Tree Key Value) (key : Key) : Except Fault (Option Value) := do
  match ← tree.lookup fuel key with
  | none => return none
  | some node => return some (← tree.deref (some node)).value

def leftLoop (tree : Tree Key Value) : Nat → Pointer → Pointer → Except Fault Pointer
  | 0, _, _ => throw .outOfFuel
  | fuel + 1, parent, current =>
      match current with
      | none => return parent
      | some _ => do leftLoop tree fuel current (← tree.deref current).left

def left (fuel : Nat) (tree : Tree Key Value) : Except Fault Pointer :=
  tree.leftLoop fuel none tree.root

end Tree

inductive Position where
  | begin
  | between
  | end
deriving DecidableEq, Repr

/-- An iterator over a tree that is not written meanwhile, so the tree is a
parameter of its methods. -/
structure Iterator where
  node : Pointer
  position : Position
deriving DecidableEq, Repr

namespace Iterator

variable {Key Value : Type} [LinearOrder Key]

def new : Iterator := ⟨none, .begin⟩

def descend (tree : Tree Key Value) : Nat → Pointer → Except Fault Pointer
  | 0, _ => throw .outOfFuel
  | fuel + 1, node => do
      match (← tree.deref node).left with
      | none => return node
      | some left => descend tree fuel (some left)

def climb (tree : Tree Key Value) (key : Key) : Nat → Pointer → Except Fault Pointer
  | 0, _ => throw .outOfFuel
  | fuel + 1, node => do
      match (← tree.deref node).parent with
      | none => return none
      | some parent =>
          if tree.comparator.compare key (← tree.deref (some parent)).key ≤ 0 then
            return some parent
          else climb tree key fuel (some parent)

def arrive (node : Pointer) : Iterator × Bool :=
  match node with
  | none => (⟨none, .end⟩, false)
  | some _ => (⟨node, .between⟩, true)

def next (fuel : Nat) (tree : Tree Key Value) (iterator : Iterator) :
    Except Fault (Iterator × Bool) := do
  match iterator.position with
  | .end => return arrive none
  | .begin => return arrive (← tree.left fuel)
  | .between =>
      let node ← tree.deref iterator.node
      match node.right with
      | some right => return arrive (← descend tree fuel (some right))
      | none => return arrive (← climb tree node.key fuel iterator.node)

end Iterator

/-- `for it.Next() { f(it.Key(), it.Value()) }`, with the fuel for the rounds
and the fuel for the calls of `Next`. What `f` does to the program's state is a
state of the loop, as long as it is not the tree. -/
def eachLoop {Key Value State : Type} [LinearOrder Key] (tree : Tree Key Value) (fuel : Nat)
    (f : State → Key × Value → Except Fault State) :
    Nat → Iterator → State → Except Fault State
  | 0, _, _ => throw .outOfFuel
  | rounds + 1, iterator, state => do
      let (iterator, more) ← iterator.next fuel tree
      if more then
        let node ← tree.deref iterator.node
        eachLoop tree fuel f rounds iterator (← f state (node.key, node.value))
      else return state

end WPerf.Treemap
