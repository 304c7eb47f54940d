import JoinPlanner.Proofs.Value.Order
import Mathlib.Algebra.Order.Field.Basic
import Mathlib.Data.Rat.Cast.Order
import Mathlib.Order.WithBot

/-!
# Values as exact numbers

A numeric value stands for a rational, for an infinity, or, above these, for what is not a number. The
places of numbers are in the order of what they stand for (`Magnitude.compare_eq_exact`), so the total
order of values compares a whole number with a float exactly, whatever a conversion would round.
-/

namespace JoinPlanner

/-- The rationals with an infinity at each end, and above them what is not a number. -/
abbrev ExactNumber : Type := WithTop (WithBot (WithTop ℚ))

namespace ExactNumber

def ofRat (q : ℚ) : ExactNumber := (((q : WithTop ℚ) : WithBot (WithTop ℚ)) : ExactNumber)

def infinity : ExactNumber := (((⊤ : WithTop ℚ) : WithBot (WithTop ℚ)) : ExactNumber)

def negativeInfinity : ExactNumber := ((⊥ : WithBot (WithTop ℚ)) : ExactNumber)

/-- The number that a float stands for. -/
def ofFloat (x : Float) : ExactNumber :=
  match Binary64.ofFloat x with
  | .nan => ⊤
  | .infinite true => negativeInfinity
  | .infinite false => infinity
  | .finite true significand scale => ofRat (-(significand * 2 ^ ((scale : ℤ) - 1074)))
  | .finite false significand scale => ofRat (significand * 2 ^ ((scale : ℤ) - 1074))

theorem ofRat_lt_ofRat {p q : ℚ} : ofRat p < ofRat q ↔ p < q := by
  simp only [ofRat, WithTop.coe_lt_coe, WithBot.coe_lt_coe]

theorem ofRat_lt_infinity (q : ℚ) : ofRat q < infinity := by
  simp only [ofRat, infinity, WithTop.coe_lt_coe, WithBot.coe_lt_coe, WithTop.coe_lt_top]

theorem negativeInfinity_lt_ofRat (q : ℚ) : negativeInfinity < ofRat q := by
  simp only [ofRat, negativeInfinity, WithTop.coe_lt_coe, WithBot.bot_lt_coe]

theorem negativeInfinity_lt_infinity : negativeInfinity < infinity :=
  (negativeInfinity_lt_ofRat 0).trans (ofRat_lt_infinity 0)

end ExactNumber

namespace Magnitude

open ExactNumber (ofRat)

/-- The number that stands at a place. -/
def exact : Magnitude → ExactNumber
  | negativeInfinity => .negativeInfinity
  | finite units => ofRat (units / unitsPerOne)
  | positiveInfinity => .infinity
  | notANumber => ⊤

theorem unitsPerOne_cast_pos : (0 : ℚ) < unitsPerOne := by
  exact_mod_cast unitsPerOne_pos

theorem exact_lt {m n : Magnitude} (h : Ord.compare m n = .lt) : m.exact < n.exact := by
  cases m <;> cases n
  case finite.finite a b =>
    refine ExactNumber.ofRat_lt_ofRat.2 (div_lt_div_of_pos_right ?_ unitsPerOne_cast_pos)
    exact_mod_cast compare_lt_iff_lt.1 h
  case negativeInfinity.finite => exact ExactNumber.negativeInfinity_lt_ofRat _
  case negativeInfinity.positiveInfinity => exact ExactNumber.negativeInfinity_lt_infinity
  case finite.positiveInfinity => exact ExactNumber.ofRat_lt_infinity _
  case negativeInfinity.notANumber | finite.notANumber | positiveInfinity.notANumber =>
    exact WithTop.coe_lt_top _
  all_goals cases h

theorem compare_eq_exact (m n : Magnitude) : Ord.compare m n = Ord.compare m.exact n.exact := by
  cases h : Ord.compare m n with
  | lt => exact (compare_lt_iff_lt.2 (exact_lt h)).symm
  | eq => rw [Std.LawfulEqOrd.eq_of_compare h, compare_eq_iff_eq.2 rfl]
  | gt => exact (compare_gt_iff_gt.2 (exact_lt (Std.OrientedCmp.lt_of_gt h))).symm

theorem exact_ofInt (n : ℤ) : (ofInt n).exact = ofRat n := by
  rw [ofInt, exact, Int.cast_mul, Int.cast_natCast, mul_div_cancel_right₀ _ unitsPerOne_cast_pos.ne']

theorem cast_shiftLeft (m u : ℕ) : ((m <<< u : ℕ) : ℚ) = m * 2 ^ u := by
  rw [Nat.shiftLeft_eq, Nat.cast_mul, Nat.cast_pow, Nat.cast_ofNat]

theorem shiftLeft_div_shiftLeft (m s u : ℕ) :
    ((m <<< s : ℕ) : ℚ) / (1 <<< u : ℕ) = m * 2 ^ ((s : ℤ) - u) := by
  rw [cast_shiftLeft, cast_shiftLeft, Nat.cast_one, one_mul, mul_div_assoc, zpow_sub₀ two_ne_zero,
    zpow_natCast, zpow_natCast]

theorem exact_ofFloat (x : Float) : (ofFloat x).exact = .ofFloat x := by
  rw [ofFloat, ExactNumber.ofFloat]
  cases Binary64.ofFloat x with
  | nan => rfl
  | infinite negative => cases negative <;> rfl
  | finite negative significand scale =>
    have hunits : ((significand <<< scale : ℕ) : ℚ) / unitsPerOne = significand * 2 ^ ((scale : ℤ) - 1074) :=
      shiftLeft_div_shiftLeft significand scale 1074
    cases negative with
    | false => exact congrArg ofRat hunits
    | true =>
      refine congrArg ofRat ?_
      rw [Int.cast_neg, neg_div]
      exact congrArg Neg.neg hunits

end Magnitude

namespace Value

/-- Values are totally ordered, and numbers by what they stand for: the integer is not rounded. -/
theorem compare_total_exact (a b c : Value) (n : Int64) (x y : Float) :
    Ord.compare a b = (Ord.compare b a).swap ∧
    (Ord.compare a b ≠ .gt → Ord.compare b c ≠ .gt → Ord.compare a c ≠ .gt) ∧
    (Ord.compare a b = .eq → Ord.compare a c = Ord.compare b c) ∧
    Ord.compare (int n) (float x) = Ord.compare (ExactNumber.ofRat n.toInt) (ExactNumber.ofFloat x) ∧
    Ord.compare (float x) (float y) = Ord.compare (ExactNumber.ofFloat x) (ExactNumber.ofFloat y) := by
  refine ⟨(compare_swap b a).symm, fun hab hbc => ?_, fun hab => ?_, ?_, ?_⟩
  · rw [compare_eq_place, compare_le_iff_le] at hab hbc ⊢
    exact hab.trans hbc
  · rw [compare_eq_place a c, compare_eq_place b c, compare_eq_iff.1 hab]
  · rw [← Magnitude.exact_ofInt, ← Magnitude.exact_ofFloat, ← Magnitude.compare_eq_exact]
    exact compareIntFloat_eq n x
  · rw [← Magnitude.exact_ofFloat, ← Magnitude.exact_ofFloat, ← Magnitude.compare_eq_exact]
    rfl

/-- The least whole number that no float is, next to the two numbers below it that are equal. -/
theorem compare_total_exact_unrounded :
    let near := Float.ofBits 0x4340000000000000
    Ord.compare (int 9007199254740992) (float near) = .eq ∧
    Ord.compare (float near) (int 9007199254740993) ≠ .gt ∧
    Ord.compare (int 9007199254740992) (int 9007199254740993) =
      Ord.compare (float near) (int 9007199254740993) ∧
    Ord.compare (int 9007199254740992) (int 9007199254740993) ≠ .gt ∧
    Ord.compare (int 9007199254740993) (float near) =
      Ord.compare (ExactNumber.ofRat 9007199254740993) (ExactNumber.ofFloat near) := by
  intro near
  have heq : Ord.compare (int 9007199254740992) (float near) = .eq := by decide +kernel
  have hle : Ord.compare (float near) (int 9007199254740993) ≠ .gt := by decide +kernel
  obtain ⟨-, htrans, hcongr, hexact, -⟩ := compare_total_exact (int 9007199254740992) (float near)
    (int 9007199254740993) 9007199254740993 near near
  have hcast : ((9007199254740993 : Int64).toInt : ℚ) = 9007199254740993 := by
    rw [show (9007199254740993 : Int64).toInt = 9007199254740993 by decide]
    norm_cast
  exact ⟨heq, hle, hcongr heq, htrans (by rw [heq]; decide) hle, hcast ▸ hexact⟩

end Value

end JoinPlanner
