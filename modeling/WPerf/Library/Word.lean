import Mathlib.Algebra.BigOperators.Group.List.Basic
import Mathlib.Data.UInt
import Mathlib.Order.Defs.LinearOrder
import Mathlib.Order.Monotone.Basic

/-!
# Machine words as a linear order

Core gives `UInt64` its order relations and decision procedures. This file
packages them as a `LinearOrder`, so that ordered maps and timelines can use
words as keys, and says when a difference of words is the difference of the
numbers they stand for, what a sum of words is, and when a signed counter shows
such a sum.
-/

namespace WPerf.Library.Word

set_option autoImplicit false

instance linearOrderUInt64 : LinearOrder UInt64 where
  le_refl word := UInt64.le_refl word
  le_trans _ _ _ first second := UInt64.le_trans first second
  lt_iff_le_not_ge _ _ := by
    simp only [UInt64.lt_iff_toNat_lt, UInt64.le_iff_toNat_le]
    omega
  le_antisymm _ _ first second := UInt64.le_antisymm first second
  le_total left right := UInt64.le_total left right
  toDecidableLE := inferInstance
  toDecidableEq := inferInstance
  toDecidableLT := inferInstance
  toMin := inferInstance
  toMax := inferInstance
  toOrd := inferInstance
  min_def _ _ := rfl
  max_def _ _ := rfl
  compare_eq_compareOfLessAndEq _ _ := rfl

theorem toNat_monotone : Monotone UInt64.toNat :=
  fun _ _ order => UInt64.le_iff_toNat_le.mp order

theorem toNat_sub_of_order {small large : UInt64} (order : small ≤ large) :
    (large - small).toNat = large.toNat - small.toNat :=
  UInt64.toNat_sub_of_le large small order

theorem lt_iff_succ_le {word bound other : UInt64} (below : word < bound) :
    word + 1 ≤ other ↔ word < other := by
  have room := UInt64.lt_iff_toNat_lt.mp below
  have size := bound.toNat_lt
  have successor : (word + 1).toNat = word.toNat + 1 := by
    rw [UInt64.toNat_add, UInt64.toNat_one]
    exact Nat.mod_eq_of_lt (by omega)
  rw [UInt64.le_iff_toNat_le, UInt64.lt_iff_toNat_lt, successor]
  exact Nat.succ_le_iff

theorem toNat_sum (list : List UInt64) :
    list.sum.toNat = (list.map UInt64.toNat).sum % 2 ^ 64 := by
  induction list with
  | nil => rfl
  | cons word rest ih =>
      rw [List.sum_cons, List.map_cons, List.sum_cons, UInt64.toNat_add, ih, Nat.add_mod_mod]

theorem toInt_eq_bmod (word : Int64) : word.toInt = (word.toUInt64.toNat : Int).bmod (2 ^ 64) :=
  BitVec.toInt_eq_toNat_bmod word.toBitVec

/-- A signed counter shows the number it has grown by exactly when it started
from zero and the number fits. -/
theorem counter_exact_iff (final base : Int64) (sum : UInt64) (n : Nat)
    (grown : final.toUInt64 = base.toUInt64 + sum) (counted : sum.toNat = n % 2 ^ 64) :
    final.toInt = n ↔ base = 0 ∧ n < 2 ^ 63 := by
  have value := toInt_eq_bmod final
  have start := toInt_eq_bmod base
  rw [grown, UInt64.toNat_add, counted] at value
  have zero : base = 0 ↔ base.toInt = 0 := Int64.toInt_inj.symm
  have limit := final.toInt_lt
  have low := final.le_toInt
  have size := base.toUInt64.toNat_lt
  rw [zero, value, start, Int.bmod_def, Int.bmod_def]
  split_ifs <;> omega

/-- A signed counter has grown by `n` exactly when what was added besides
vanishes in 64 bits and the result fits. -/
theorem counter_grown_iff (final base : Int64) (sum : UInt64) (n extra : Nat)
    (grown : final.toUInt64 = base.toUInt64 + sum) (counted : sum.toNat = (n + extra) % 2 ^ 64) :
    final.toInt = base.toInt + n ↔ 2 ^ 64 ∣ extra ∧ base.toInt + n < 2 ^ 63 := by
  have value := toInt_eq_bmod final
  have start := toInt_eq_bmod base
  rw [grown, UInt64.toNat_add, counted] at value
  have low := base.le_toInt
  have size := base.toUInt64.toNat_lt
  rw [value, start, Int.bmod_def, Int.bmod_def]
  split_ifs <;> omega

end WPerf.Library.Word
