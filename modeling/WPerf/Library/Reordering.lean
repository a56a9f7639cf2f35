import Mathlib.Data.List.FinRange
import Mathlib.Data.List.Sort
import Mathlib.Logic.Equiv.Defs

/-!
# Reorderings that respect a dependency

Two lists are orderings of the same items that agree on the order of related
items. Then they have the same items of every class whose items are pairwise
related, in the same order. A run that ignores the items outside such a class
ends in the same state on both.
-/

namespace WPerf.Library.Reordering

set_option autoImplicit false

variable {Item State : Type*}

/-- A bijection of the positions that keeps the items and the order of every
two related ones. -/
def Reordered (related : Item → Item → Prop) (left right : List Item) : Prop :=
  ∃ move : Fin left.length ≃ Fin right.length,
    (∀ i, right.get (move i) = left.get i) ∧
      ∀ i j, i < j → related (left.get i) (left.get j) → move i < move j

def positions (pred : Item → Bool) (list : List Item) : List (Fin list.length) :=
  (List.finRange list.length).filter fun i => pred (list.get i)

theorem mem_positions (pred : Item → Bool) (list : List Item) (i : Fin list.length) :
    i ∈ positions pred list ↔ pred (list.get i) = true := by
  simp [positions, List.mem_finRange]

theorem positions_ordered (pred : Item → Bool) (list : List Item) :
    (positions pred list).Pairwise (· < ·) :=
  (List.pairwise_lt_finRange list.length).filter _

theorem map_positions (pred : Item → Bool) (list : List Item) :
    (positions pred list).map list.get = list.filter pred := by
  have whole : ((List.finRange list.length).map list.get).filter pred = list.filter pred := by
    rw [List.map_get_finRange]
  rw [← whole, List.filter_map]
  rfl

theorem positions_moved (pred : Item → Bool) (left right : List Item)
    (move : Fin left.length ≃ Fin right.length) (same : ∀ i, right.get (move i) = left.get i)
    (ordered : ∀ i ∈ positions pred left, ∀ j ∈ positions pred left, i < j → move i < move j) :
    (positions pred left).map move = positions pred right := by
  have increasing : ((positions pred left).map move).Pairwise (· < ·) := by
    rw [List.pairwise_map]
    refine (positions_ordered pred left).imp_of_mem ?_
    intro i j iMember jMember order
    exact ordered i iMember j jMember order
  have members : ∀ j, j ∈ (positions pred left).map move ↔ j ∈ positions pred right := by
    intro j
    rw [List.mem_map, mem_positions]
    constructor
    · intro ⟨i, member, moved⟩
      rw [← moved, same]
      exact (mem_positions pred left i).mp member
    · intro chosen
      refine ⟨move.symm j, ?_, move.apply_symm_apply j⟩
      rw [mem_positions, ← same, move.apply_symm_apply]
      exact chosen
  have strict : ∀ list : List (Fin right.length), list.Pairwise (· < ·) → list.Nodup :=
    fun list order => order.imp fun less => ne_of_lt less
  have permutation := (List.perm_ext_iff_of_nodup (strict _ increasing)
    (strict _ (positions_ordered pred right))).mpr members
  refine permutation.eq_of_pairwise ?_ increasing (positions_ordered pred right)
  intro i j _ _ forward backward
  exact absurd (forward.trans backward) (lt_irrefl _)

theorem filter_moved (pred : Item → Bool) (left right : List Item)
    (move : Fin left.length ≃ Fin right.length) (same : ∀ i, right.get (move i) = left.get i)
    (moved : (positions pred left).map move = positions pred right) :
    left.filter pred = right.filter pred := by
  rw [← map_positions, ← map_positions, ← moved, List.map_map]
  apply List.map_congr_left
  intro i _
  exact (same i).symm

theorem filter_eq {related : Item → Item → Prop} {left right : List Item}
    (reordered : Reordered related left right) (pred : Item → Bool)
    (dependent : ∀ first second, pred first = true → pred second = true → related first second) :
    left.filter pred = right.filter pred := by
  obtain ⟨move, same, keeps⟩ := reordered
  apply filter_moved pred left right move same
  apply positions_moved pred left right move same
  intro i iMember j jMember order
  apply keeps i j order
  exact dependent _ _ ((mem_positions pred left i).mp iMember)
    ((mem_positions pred left j).mp jMember)

theorem perm {related : Item → Item → Prop} {left right : List Item}
    (reordered : Reordered related left right) : left.Perm right := by
  obtain ⟨move, same, _⟩ := reordered
  have leftIs : left = ((List.finRange left.length).map move).map right.get := by
    rw [List.map_map]
    calc left = (List.finRange left.length).map left.get := (List.map_get_finRange left).symm
      _ = (List.finRange left.length).map (right.get ∘ move) :=
          List.map_congr_left fun i _ => (same i).symm
  have rightIs : right = (List.finRange right.length).map right.get :=
    (List.map_get_finRange right).symm
  have moved : ((List.finRange left.length).map move).Perm (List.finRange right.length) := by
    apply (List.perm_ext_iff_of_nodup ((List.nodup_finRange _).map move.injective)
      (List.nodup_finRange _)).mpr
    intro j
    refine iff_of_true (List.mem_map.mpr ⟨move.symm j, ?_, ?_⟩) (List.mem_finRange j)
    · exact List.mem_finRange _
    · exact move.apply_symm_apply j
  have mapped := moved.map right.get
  rw [← leftIs, ← rightIs] at mapped
  exact mapped

/-- A run that ignores the items outside a class is a run over the class. -/
theorem foldl_filter_eq (pred : Item → Bool) (step : State → Item → State)
    (ignores : ∀ state item, pred item = false → step state item = state)
    (list : List Item) (state : State) :
    list.foldl step state = (list.filter pred).foldl step state := by
  induction list generalizing state with
  | nil => rfl
  | cons item rest ih =>
      cases chosen : pred item with
      | true => rw [List.filter_cons_of_pos chosen, List.foldl_cons, List.foldl_cons, ih]
      | false =>
          have skipped : ¬pred item = true := by
            rw [chosen]
            exact Bool.false_ne_true
          rw [List.filter_cons_of_neg skipped, List.foldl_cons, ignores state item chosen, ih]

theorem foldl_eq {related : Item → Item → Prop} {left right : List Item}
    (reordered : Reordered related left right) (pred : Item → Bool)
    (dependent : ∀ first second, pred first = true → pred second = true → related first second)
    (step : State → Item → State)
    (ignores : ∀ state item, pred item = false → step state item = state) (state : State) :
    left.foldl step state = right.foldl step state := by
  rw [foldl_filter_eq pred step ignores left, foldl_filter_eq pred step ignores right,
    filter_eq reordered pred dependent]

theorem sorted_keys_eq {Key : Type*} [PartialOrder Key] (key : Item → Key)
    {left right : List Item} (reordered : left.Perm right)
    (leftSorted : left.Pairwise fun first second => key first ≤ key second)
    (rightSorted : right.Pairwise fun first second => key first ≤ key second) :
    left.map key = right.map key := by
  apply (reordered.map key).eq_of_pairwise (fun _ _ _ _ => le_antisymm)
  · exact List.pairwise_map.mpr leftSorted
  · exact List.pairwise_map.mpr rightSorted

end WPerf.Library.Reordering
