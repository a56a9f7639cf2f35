import WPerf.Library.OrderedMap
import WPerf.Library.Runs
import WPerf.Treemap.Iterator

/-!
# Tree maps

`maps/treemap` over the red-black tree, and its refinement of an ordered map.
In every run from a new map the tree stays a red-black search tree with as many
nodes as `size` says, no call follows a nil pointer, no loop makes more rounds
than the height of such a tree allows, and every answer is the ordered map's.
-/

namespace WPerf.Treemap

open WPerf.Library WPerf.Analyzer
open WPerf.Library.ColoredTree (Color Side Path Parts Sorted Balanced zip search nearest before after)

set_option autoImplicit false

structure Map (Key Value : Type) [LinearOrder Key] where
  tree : Tree Key Value

namespace Map

variable {Key Value : Type} [LinearOrder Key]

def newWith (comparator : Comparator Key) : Map Key Value := ⟨Tree.newWith comparator⟩

def put (fuel : Nat) (m : Map Key Value) (key : Key) (value : Value) :
    Except Fault (Map Key Value) := do
  return ⟨← m.tree.put fuel key value⟩

def get (fuel : Nat) (m : Map Key Value) (key : Key) : Except Fault (Option Value) :=
  m.tree.get fuel key

def entry (m : Map Key Value) (node : Pointer) : Except Fault (Option (Key × Value)) :=
  match node with
  | none => return none
  | some _ => do
      let found ← m.tree.deref node
      return some (found.key, found.value)

def floor (fuel : Nat) (m : Map Key Value) (key : Key) : Except Fault (Option (Key × Value)) := do
  m.entry (← m.tree.floor fuel key)

def ceiling (fuel : Nat) (m : Map Key Value) (key : Key) :
    Except Fault (Option (Key × Value)) := do
  m.entry (← m.tree.ceiling fuel key)

def each {State : Type} (fuel rounds : Nat) (m : Map Key Value)
    (f : State → Key × Value → Except Fault State) (state : State) : Except Fault State :=
  eachLoop m.tree fuel f rounds Iterator.new state

/-- As many rounds as a loop down or up the tree needs. -/
def rounds (m : Map Key Value) : Nat := 2 * Nat.log 2 (m.tree.size + 1) + 1

end Map

section Refinement

variable {Key Value : Type} [LinearOrder Key]

/-- A red-black search tree in memory, with the entries of the ordered map. -/
structure Refines (m : Map Key Value) (map : OrderedMap Key Value) (shape : Shape Key Value) :
    Prop where
  sound : Sound m.tree shape
  entries : shape.inorder.map Item.entry = map.entries

variable {m : Map Key Value} {map : OrderedMap Key Value} {shape : Shape Key Value}

theorem Refines.sorted (refines : Refines m map shape) : Sorted Item.key shape := by
  have order := map.sorted
  rw [← refines.entries, List.pairwise_map] at order
  exact order

theorem Refines.size (refines : Refines m map shape) : m.tree.size = map.entries.length := by
  rw [refines.sound.size, ← refines.entries, List.length_map]

theorem Refines.height (refines : Refines m map shape) : shape.height < m.rounds := by
  obtain ⟨n, balanced⟩ := refines.sound.balanced
  have bound := balanced.height_le_log refines.sound.isBlack
  rw [← refines.sound.size] at bound
  exact Nat.lt_succ_of_le bound

theorem new_refines (comparator : Comparator Key) :
    Refines (Map.newWith comparator : Map Key Value) ∅ .leaf :=
  ⟨new_sound comparator, rfl⟩

theorem Refines.put (refines : Refines m map shape) (key : Key) (value : Value) :
    ∃ after, m.put m.rounds key value = .ok after ∧
      Refines after (map.put key value) (putShape m.tree key value shape) := by
  obtain ⟨after, ran, sound, _⟩ := put_sound m.rounds refines.sound key value
    refines.height.le (Nat.zero_lt_of_lt refines.height)
  refine ⟨⟨after⟩, ?_, sound, ?_⟩
  · rw [Map.put, ran]
    rfl
  · -- the new entry stands between the smaller and the greater ones
    have order := refines.entries
    obtain ⟨lower, upper, below, above, ⟨split, placed⟩ | ⟨old, same, split, placed⟩⟩ :=
      ColoredTree.insert_with_inorder Item.key key (putItem m.tree key value) refines.sorted
    all_goals
      have belowEntries : ∀ entry ∈ lower.map Item.entry, entry.1 < key := by
        intro entry member
        obtain ⟨item, inside, rfl⟩ := List.mem_map.mp member
        exact below item inside
      have aboveEntries : ∀ entry ∈ upper.map Item.entry, key < entry.1 := by
        intro entry member
        obtain ⟨item, inside, rfl⟩ := List.mem_map.mp member
        exact above item inside
      rw [putShape, placed]
      rw [split] at order
      simp only [OrderedMap.put, ← order, List.map_append, List.map_cons]
    · rw [OrderedMap.put_entry_split value belowEntries aboveEntries]
      rfl
    · have oldEntry : old.entry = (key, old.value) := by rw [← same]; rfl
      rw [oldEntry, OrderedMap.put_entry_replace value old.value belowEntries]
      rfl

/-- Where the search for a key ends: at its node, or at a leaf between the
smaller and the greater entries. -/
theorem Refines.search_cases (refines : Refines m map shape) (key : Key) :
    (∃ path, search Item.key key [] shape = (path, .leaf) ∧
      map.entries = (before path).map Item.entry ++ (after path).map Item.entry ∧
      (∀ entry ∈ (before path).map Item.entry, entry.1 < key) ∧
      ∀ entry ∈ (after path).map Item.entry, key < entry.1) ∨
    ∃ path color left item right, search Item.key key [] shape = (path, .node color left item right) ∧
      (key, item.value) ∈ map.entries ∧ item.key = key := by
  have parts := ColoredTree.search_parts Item.key key [] shape refines.sorted
    (ColoredTree.parts_top Item.key key)
  have whole := ColoredTree.zip_search Item.key key [] shape
  have inorder : (zip (search Item.key key [] shape).1 (search Item.key key [] shape).2).inorder =
      shape.inorder := congrArg ColoredTree.inorder whole
  rcases ColoredTree.search_focus Item.key key [] shape with
    ended | ⟨color, left, item, right, ended, same⟩
  · refine Or.inl ⟨(search Item.key key [] shape).1, Prod.ext rfl ended, ?_, ?_, ?_⟩
    · rw [ended, ColoredTree.inorder_zip, ColoredTree.inorder_leaf, List.append_nil] at inorder
      rw [← refines.entries, ← inorder, List.map_append]
    · intro entry member
      obtain ⟨lower, inside, rfl⟩ := List.mem_map.mp member
      exact parts.below lower inside
    · intro entry member
      obtain ⟨upper, inside, rfl⟩ := List.mem_map.mp member
      exact parts.above upper inside
  · refine Or.inr ⟨(search Item.key key [] shape).1, color, left, item, right, Prod.ext rfl ended,
      ?_, same⟩
    have entry : item.entry = (key, item.value) := by rw [← same]; rfl
    rw [← refines.entries, ← entry]
    apply List.mem_map_of_mem
    rw [← inorder, ended, ColoredTree.inorder_zip]
    simp

theorem Refines.entry_at (refines : Refines m map shape) (item : Option (Item Key Value))
    (inShape : ∀ found, item = some found → found ∈ shape.inorder) :
    m.entry (item.map Item.address) = .ok (item.map Item.entry) := by
  cases item with
  | none => rfl
  | some item =>
      obtain ⟨node, here, key, value⟩ :=
        holds_item refines.sound.held.holds item (inShape item rfl)
      have read := Tree.deref_of_held here
      simp only [Map.entry, Option.map_some, read, Fallible.ok_bind, key, value]
      rfl

theorem Refines.walk (refines : Refines m map shape) (remembers : Side → Bool) (key : Key) :
    m.tree.walkLoop key remembers m.rounds none m.tree.root =
      .ok ((remembered remembers (search Item.key key [] shape)).map Item.address) := by
  have root : m.tree.root = rootOf shape := refines.sound.held.root
  rw [root]
  exact walk_loop_spec key remembers m.rounds refines.sound.held refines.height

theorem Refines.remembered_mem (remembers : Side → Bool) (key : Key) (item : Item Key Value)
    (found : remembered remembers (search Item.key key [] shape) = some item) :
    item ∈ shape.inorder := by
  rw [← ColoredTree.zip_nil shape, ← ColoredTree.zip_search Item.key key [] shape]
  cases ended : (search Item.key key [] shape).2 with
  | leaf =>
      rw [remembered, ended] at found
      obtain ⟨frame, first, rfl⟩ := Option.map_eq_some_iff.mp found
      exact ColoredTree.item_mem_zip _ _ frame (List.mem_of_find?_eq_some first)
  | node color left focus right =>
      rw [remembered, ended] at found
      cases found
      rw [ColoredTree.inorder_zip]
      simp

theorem Refines.get (refines : Refines m map shape) (key : Key) :
    m.get m.rounds key = .ok (map.get key) := by
  rw [Map.get, Tree.get, Tree.lookup, refines.walk]
  rcases refines.search_cases key with
    ⟨path, ended, split, below, above⟩ | ⟨path, color, left, item, right, ended, member, same⟩
  · have nothing : remembered (fun _ => false) (search Item.key key [] shape) = none := by
      rw [ended]
      simp [remembered]
    rw [nothing, OrderedMap.get_split split below above]
    rfl
  · have found : remembered (fun _ => false) (search Item.key key [] shape) = some item := by
      rw [ended]
      rfl
    obtain ⟨node, here, _, value⟩ := holds_item refines.sound.held.holds item
      (Refines.remembered_mem _ key item found)
    rw [found, OrderedMap.get_of_mem member]
    simp only [Option.map_some, Fallible.ok_bind, Tree.deref_of_held here, value]
    rfl

theorem Refines.floor (refines : Refines m map shape) (key : Key) :
    m.floor m.rounds key = .ok (map.floor key) := by
  rw [Map.floor, Tree.floor, refines.walk, Fallible.ok_bind,
    refines.entry_at _ (Refines.remembered_mem _ key)]
  rcases refines.search_cases key with
    ⟨path, ended, split, below, above⟩ | ⟨path, color, left, item, right, ended, member, same⟩
  · rw [OrderedMap.floor_split split below above, ended, List.getLast?_map,
      ColoredTree.before_getLast]
    rfl
  · rw [OrderedMap.floor_of_mem member, ended, ← same]
    rfl

theorem Refines.ceiling (refines : Refines m map shape) (key : Key) :
    m.ceiling m.rounds key = .ok (map.ceiling key) := by
  rw [Map.ceiling, Tree.ceiling, refines.walk, Fallible.ok_bind,
    refines.entry_at _ (Refines.remembered_mem _ key)]
  rcases refines.search_cases key with
    ⟨path, ended, split, below, above⟩ | ⟨path, color, left, item, right, ended, member, same⟩
  · rw [OrderedMap.ceiling_split split below above, ended, List.head?_map,
      ColoredTree.after_head]
    rfl
  · rw [OrderedMap.ceiling_of_mem member, ended, ← same]
    rfl

theorem Refines.each (refines : Refines m map shape) {State : Type}
    (f : State → Key × Value → Except Fault State) (state : State) :
    m.each m.rounds (m.tree.size + 1) f state = map.entries.foldlM f state := by
  rw [Map.each, ← refines.entries]
  exact each_loop_spec f m.rounds _ refines.sound.held refines.sorted refines.height
    (Nat.lt_succ_of_le refines.sound.size.ge) state

/-- In every run of `Put` from a new map no pointer that is followed is nil, no
loop needs more than its rounds, and the nodes form a red-black search tree:
every child has its parent's pointer and every node is reached once, keys grow
from left to right, no red node has a red child, and every way down passes as
many black nodes. The tree holds the last value put at each key and no other,
and `size` counts the keys. -/
theorem put_run_red_black (comparator : Comparator Key) (entries : List (Key × Value)) :
    ∃ m shape, Runs.run (fun (m : Map Key Value) entry => m.put m.rounds entry.1 entry.2)
        (Map.newWith comparator) entries = .ok m ∧
      Represents m.tree [] shape ∧ Sorted Item.key shape ∧
      (∃ blackHeight, Balanced blackHeight shape) ∧ shape.color = .black ∧
      shape.inorder.map Item.entry = (OrderedMap.putAll entries ∅).entries ∧
      (∀ entry, entry ∈ shape.inorder.map Item.entry ↔
        ∃ before after, entries = before ++ entry :: after ∧
          ∀ later ∈ after, later.1 ≠ entry.1) ∧
      m.tree.size = shape.inorder.length ∧
      m.tree.size = (entries.map Prod.fst).toFinset.card ∧
      shape.height ≤ 2 * Nat.log 2 (m.tree.size + 1) := by
  obtain ⟨m, ran, shape, refines⟩ := Runs.run_simulates
    (fun (m : Map Key Value) (map : OrderedMap Key Value) => ∃ shape, Refines m map shape)
    (fun map entry => map.put entry.1 entry.2)
    (fun m map entry related => by
      obtain ⟨shape, refines⟩ := related
      obtain ⟨after, ran, later⟩ := refines.put entry.1 entry.2
      exact ⟨after, ran, _, later⟩)
    (Map.newWith comparator) ∅ ⟨.leaf, new_refines comparator⟩ entries
  have held : shape.inorder.map Item.entry = (OrderedMap.putAll entries ∅).entries :=
    refines.entries
  refine ⟨m, shape, ran, refines.sound.held, refines.sorted, refines.sound.balanced,
    refines.sound.isBlack, held, ?_, refines.sound.size, ?_, Nat.le_of_lt_succ refines.height⟩
  · intro entry
    rw [held, OrderedMap.mem_put_all]
    exact or_iff_left fun old => absurd old.1 List.not_mem_nil
  · exact refines.size.trans (OrderedMap.put_all_length entries)

end Refinement

section Runs

variable {Key Value : Type}

inductive Call (Key Value : Type) where
  | put (key : Key) (value : Value)
  | get (key : Key)
  | floor (key : Key)
  | ceiling (key : Key)
  | each

inductive Answer (Key Value : Type) where
  | done
  | value (found : Option Value)
  | entry (found : Option (Key × Value))
  | entries (all : List (Key × Value))

def note (seen : List (Key × Value)) (entry : Key × Value) :
    Except Fault (List (Key × Value)) :=
  .ok (seen ++ [entry])

theorem note_all (seen entries : List (Key × Value)) :
    entries.foldlM note seen = .ok (seen ++ entries) := by
  induction entries generalizing seen with
  | nil => rw [List.append_nil]; rfl
  | cons entry rest ih =>
      rw [List.foldlM_cons, note, Fallible.ok_bind, ih, List.append_assoc, List.singleton_append]

variable [LinearOrder Key]

def Map.call (state : Map Key Value × List (Answer Key Value)) :
    Call Key Value → Except Fault (Map Key Value × List (Answer Key Value))
  | .put key value => do
      return (← state.1.put state.1.rounds key value, state.2 ++ [.done])
  | .get key => do return (state.1, state.2 ++ [.value (← state.1.get state.1.rounds key)])
  | .floor key => do return (state.1, state.2 ++ [.entry (← state.1.floor state.1.rounds key)])
  | .ceiling key => do
      return (state.1, state.2 ++ [.entry (← state.1.ceiling state.1.rounds key)])
  | .each => do
      return (state.1, state.2 ++
        [.entries (← state.1.each state.1.rounds (state.1.tree.size + 1) note [])])

def orderedCall (state : OrderedMap Key Value × List (Answer Key Value)) :
    Call Key Value → OrderedMap Key Value × List (Answer Key Value)
  | .put key value => (state.1.put key value, state.2 ++ [.done])
  | .get key => (state.1, state.2 ++ [.value (state.1.get key)])
  | .floor key => (state.1, state.2 ++ [.entry (state.1.floor key)])
  | .ceiling key => (state.1, state.2 ++ [.entry (state.1.ceiling key)])
  | .each => (state.1, state.2 ++ [.entries state.1.entries])

theorem call_simulates (state : Map Key Value × List (Answer Key Value))
    (map : OrderedMap Key Value × List (Answer Key Value)) (call : Call Key Value)
    (related : (∃ shape, Refines state.1 map.1 shape) ∧ state.2 = map.2) :
    ∃ later, Map.call state call = .ok later ∧
      (∃ shape, Refines later.1 (orderedCall map call).1 shape) ∧
      later.2 = (orderedCall map call).2 := by
  obtain ⟨m, log⟩ := state
  obtain ⟨map, answers⟩ := map
  obtain ⟨⟨shape, refines⟩, rfl⟩ := related
  cases call with
  | put key value =>
      obtain ⟨after, ran, later⟩ := refines.put key value
      refine ⟨(after, log ++ [.done]), ?_, ⟨_, later⟩, rfl⟩
      simp only [Map.call, ran, Fallible.ok_bind]
      rfl
  | get key =>
      refine ⟨(m, log ++ [.value (map.get key)]), ?_, ⟨shape, refines⟩, rfl⟩
      simp only [Map.call, refines.get, Fallible.ok_bind]
      rfl
  | floor key =>
      refine ⟨(m, log ++ [.entry (map.floor key)]), ?_, ⟨shape, refines⟩, rfl⟩
      simp only [Map.call, refines.floor, Fallible.ok_bind]
      rfl
  | ceiling key =>
      refine ⟨(m, log ++ [.entry (map.ceiling key)]), ?_, ⟨shape, refines⟩, rfl⟩
      simp only [Map.call, refines.ceiling, Fallible.ok_bind]
      rfl
  | each =>
      refine ⟨(m, log ++ [.entries map.entries]), ?_, ⟨shape, refines⟩, rfl⟩
      simp only [Map.call, refines.each, note_all, Fallible.ok_bind, List.nil_append]
      rfl

/-- Whatever calls a program makes on a new map, in whatever order, none fails
and the answers are those of an ordered map. -/
theorem map_run_answers (comparator : Comparator Key) (calls : List (Call Key Value)) :
    ∃ m, Runs.run Map.call (Map.newWith comparator, []) calls =
      .ok (m, (calls.foldl orderedCall (∅, [])).2) := by
  obtain ⟨⟨m, log⟩, ran, _, answered⟩ := Runs.run_simulates
    (fun (state : Map Key Value × List (Answer Key Value)) map =>
      (∃ shape, Refines state.1 map.1 shape) ∧ state.2 = map.2)
    orderedCall call_simulates (Map.newWith comparator, []) (∅, [])
    ⟨⟨.leaf, new_refines comparator⟩, rfl⟩ calls
  exact ⟨m, by rw [ran, ← answered]⟩

end Runs

end WPerf.Treemap
