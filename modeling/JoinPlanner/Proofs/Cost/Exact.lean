import Mathlib.Algebra.Order.AddGroupWithTop
import Mathlib.Algebra.Order.Field.Basic
import Mathlib.Algebra.Order.Field.Rat
import Mathlib.Algebra.Order.Ring.WithTop
import JoinPlanner.Cost.Basic

/-!
# Exact numbers

Costs as rationals with `⊤` for what is infinite. Nothing is rounded and everything is a number: a quotient
by zero is infinite, as is a difference with one side infinite, and a product with zero is zero.
-/

namespace JoinPlanner

abbrev Exact := WithTop ℚ

namespace Exact

def div : Exact → Exact → Exact
  | ⊤, _ => ⊤
  | (_ : ℚ), ⊤ => 0
  | (a : ℚ), (b : ℚ) => if b = 0 then ⊤ else (a / b : ℚ)

instance : CostNumber Exact where
  div := div
  ofCount n := (n : ℚ)
  infinity := ⊤
  isFinite a := decide (a ≠ ⊤)
  le a b := decide (a ≤ b)
  abs := WithTop.map fun q => |q|

open CostNumber (ofCount infinity lt)

variable {a b : Exact}

@[simp] theorem lt_iff : lt a b = true ↔ a < b := by
  simp only [lt, CostNumber.le, Bool.and_eq_true, decide_eq_true_eq, Bool.not_eq_true', decide_eq_false_iff_not,
    lt_iff_le_not_ge]

theorem lt_eq_false_iff : lt a b = false ↔ ¬ a < b := by
  rw [← lt_iff, Bool.not_eq_true]

@[simp] theorem infinity_lt (a : Exact) : lt infinity a = false := lt_eq_false_iff.2 not_top_lt

theorem min_eq (a b : Exact) : CostNumber.min a b = min a b := by
  have hnumber : CostNumber.isNumber a = true := decide_eq_true le_rfl
  rw [CostNumber.min, hnumber, Bool.not_true, Bool.false_or]
  split
  · exact (min_eq_right (lt_iff.1 ‹_›).le).symm
  · exact (min_eq_left (not_lt.1 fun h => ‹¬_› (lt_iff.2 h))).symm

theorem zero_le_ofCount (n : ℕ) : 0 ≤ (ofCount n : Exact) := WithTop.coe_nonneg.2 n.cast_nonneg

theorem zero_le_mul (ha : 0 ≤ a) (hb : 0 ≤ b) : 0 ≤ a * b := by
  cases a using WithTop.recTopCoe with
  | top =>
    rw [WithTop.top_mul']
    split
    · exact le_rfl
    · exact le_top
  | coe a =>
    cases b using WithTop.recTopCoe with
    | top =>
      rw [WithTop.mul_top']
      split
      · exact le_rfl
      · exact le_top
    | coe b => exact WithTop.coe_nonneg.2 (mul_nonneg (WithTop.coe_nonneg.1 ha) (WithTop.coe_nonneg.1 hb))

theorem zero_le_div (ha : 0 ≤ a) (hb : 0 ≤ b) : 0 ≤ a / b := by
  change 0 ≤ div a b
  cases a using WithTop.recTopCoe with
  | top => exact le_top
  | coe a =>
    cases b using WithTop.recTopCoe with
    | top => exact le_rfl
    | coe b =>
      change 0 ≤ if b = 0 then ⊤ else ((a / b : ℚ) : Exact)
      split
      · exact le_top
      · exact WithTop.coe_nonneg.2 (div_nonneg (WithTop.coe_nonneg.1 ha) (WithTop.coe_nonneg.1 hb))

theorem zero_le_abs (a : Exact) : 0 ≤ CostNumber.abs a := by
  cases a using WithTop.recTopCoe with
  | top => exact le_top
  | coe a => exact WithTop.coe_nonneg.2 (abs_nonneg a)

theorem ofCount_eq (n : ℕ) : (ofCount n : Exact) = ((n : ℚ) : Exact) := rfl

theorem coe_div (a : ℚ) {b : ℚ} (hb : b ≠ 0) : (a : Exact) / (b : Exact) = ((a / b : ℚ) : Exact) := if_neg hb

theorem abs_coe (a : ℚ) : CostNumber.abs (a : Exact) = ((|a| : ℚ) : Exact) := rfl

theorem coe_sub (a b : ℚ) : (a : Exact) - (b : Exact) = ((a - b : ℚ) : Exact) := rfl

theorem ofCount_ne_top (n : ℕ) : (ofCount n : Exact) ≠ ⊤ := WithTop.coe_ne_top

theorem sub_ne_top (ha : a ≠ ⊤) (hb : b ≠ ⊤) : a - b ≠ ⊤ := by
  lift a to ℚ using ha
  lift b to ℚ using hb
  exact WithTop.coe_ne_top

theorem abs_ne_top (ha : a ≠ ⊤) : CostNumber.abs a ≠ ⊤ := by
  lift a to ℚ using ha
  exact WithTop.coe_ne_top

theorem div_ne_top (ha : a ≠ ⊤) (hb : b ≠ 0) : a / b ≠ ⊤ := by
  lift a to ℚ using ha
  cases b using WithTop.recTopCoe with
  | top => exact WithTop.zero_ne_top
  | coe b =>
    rw [coe_div a fun h => hb (congrArg _ h)]
    exact WithTop.coe_ne_top

/-- A share of a number that is not negative is no greater. -/
theorem mul_share_le (ha : 0 ≤ a) {n m : ℕ} (hnm : n ≤ m) (hm : 0 < m) : a * (ofCount n / ofCount m) ≤ a := by
  cases a using WithTop.recTopCoe with
  | top => exact le_top
  | coe a =>
    have hshare : (n / m : ℚ) ≤ 1 := (div_le_one (Nat.cast_pos.2 hm)).2 (Nat.cast_le.2 hnm)
    rw [ofCount_eq, ofCount_eq, coe_div _ (Nat.cast_ne_zero.2 hm.ne'), ← WithTop.coe_mul, WithTop.coe_le_coe]
    exact mul_le_of_le_one_right (WithTop.coe_nonneg.1 ha) hshare

end Exact

end JoinPlanner
