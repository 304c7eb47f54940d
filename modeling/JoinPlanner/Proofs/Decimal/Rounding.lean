import JoinPlanner.Value.Basic
import Mathlib.Algebra.Order.Ring.Int
import Mathlib.Data.Nat.Basic
import Mathlib.Order.Compare
import Mathlib.Tactic.Ring

/-!
# Comparing a whole number with a float

A whole number beyond 53 bits is no float, and its comparison with one rounds it first. No float lies
between the two multiples around a number from which its rounding chooses (`Binary64.multiple_le`), so
rounding never passes a float (`Binary64.roundInt_sides`), and where it meets one that float is whole. The comparison is thus that of the exact numbers
(`Value.compareIntFloat_eq`).
-/

namespace JoinPlanner

namespace Binary64

variable {m n q s t u : ℕ}

/-- Between neighbouring multiples with a factor of 53 bits there is no float. -/
theorem multiple_le (hm : m < 2 ^ 53) (hq : 2 ^ 52 ≤ q) (h : q * 2 ^ t < m * 2 ^ s) :
    (q + 1) * 2 ^ t ≤ m * 2 ^ s := by
  have hle : t ≤ s := by
    by_contra hlt
    have hpow : 2 ^ (s + 1) ≤ 2 ^ t := Nat.pow_le_pow_right (by omega) (by omega)
    have : m * 2 ^ s ≤ q * 2 ^ t := calc
      m * 2 ^ s ≤ (q * 2) * 2 ^ s := Nat.mul_le_mul_right _ (by omega)
      _ = q * 2 ^ (s + 1) := by ring
      _ ≤ q * 2 ^ t := Nat.mul_le_mul_left _ hpow
    omega
  obtain ⟨d, rfl⟩ := Nat.exists_eq_add_of_le hle
  rw [show m * 2 ^ (t + d) = m * 2 ^ d * 2 ^ t by ring] at h ⊢
  exact Nat.mul_le_mul_right _ (Nat.lt_of_mul_lt_mul_right h)

/-- A number that is no float goes to one of the two multiples around it. -/
theorem roundNat_cases (n : ℕ) : roundNat n = n ∨ ∃ q t, 2 ^ 52 ≤ q ∧ q * 2 ^ t < n ∧
    n < (q + 1) * 2 ^ t ∧ (roundNat n = q * 2 ^ t ∨ roundNat n = (q + 1) * 2 ^ t) := by
  have hsplit := Nat.div_add_mod' n (2 ^ (n.log2 - 52))
  have hrest := Nat.mod_lt n (Nat.two_pow_pos (n.log2 - 52))
  simp only [roundNat, Nat.shiftLeft_eq, Nat.shiftRight_eq_div_pow, Nat.one_mul]
  by_cases hzero : n % 2 ^ (n.log2 - 52) = 0
  · refine .inl ?_
    rw [if_pos (.inl (by omega))]
    omega
  · refine .inr ⟨n / 2 ^ (n.log2 - 52), n.log2 - 52, ?_, by omega, ?_, ?_⟩
    · have hne : n ≠ 0 := by rintro rfl; simp at hzero
      have hlog : n.log2 = 52 + (n.log2 - 52) := by
        by_contra hsmall
        rw [show n.log2 - 52 = 0 by omega, Nat.pow_zero, Nat.mod_one] at hzero
        exact hzero rfl
      have hpow : 2 ^ (52 + (n.log2 - 52)) ≤ n := hlog ▸ Nat.log2_self_le hne
      exact (Nat.le_div_iff_mul_le (Nat.two_pow_pos _)).2 (by rwa [Nat.pow_add] at hpow)
    · rw [Nat.add_mul]
      omega
    · split
      · exact .inl rfl
      · exact .inr rfl

theorem roundNat_le_two_mul (n : ℕ) : roundNat n ≤ 2 * n := by
  rcases roundNat_cases n with h | ⟨q, t, hq, hlo, -, h | h⟩
  · omega
  · omega
  · have : 2 ^ t ≤ q * 2 ^ t := Nat.le_mul_of_pos_left _ (by omega)
    rw [h, Nat.add_mul]
    omega

theorem le_roundNat (hm : m < 2 ^ 53) (h : m * 2 ^ s ≤ n * 2 ^ u) :
    m * 2 ^ s ≤ roundNat n * 2 ^ u := by
  rcases roundNat_cases n with heq | ⟨q, t, hq, -, hhi, hround⟩
  · rwa [heq]
  · have hle : q * 2 ^ t ≤ roundNat n := by
      rcases hround with h | h <;> rw [h]
      exact Nat.mul_le_mul_right _ (by omega)
    have hfloor : m * 2 ^ s ≤ q * 2 ^ t * 2 ^ u := by
      by_contra hgt
      have hgt : q * 2 ^ (t + u) < m * 2 ^ s := by rw [Nat.pow_add, ← Nat.mul_assoc]; omega
      have hnext := multiple_le hm hq hgt
      have hpast : n * 2 ^ u < (q + 1) * 2 ^ t * 2 ^ u :=
        Nat.mul_lt_mul_of_pos_right hhi (Nat.two_pow_pos u)
      rw [Nat.pow_add, ← Nat.mul_assoc] at hnext
      omega
    exact hfloor.trans (Nat.mul_le_mul_right _ hle)

theorem roundNat_le (hm : m < 2 ^ 53) (h : n * 2 ^ u ≤ m * 2 ^ s) :
    roundNat n * 2 ^ u ≤ m * 2 ^ s := by
  rcases roundNat_cases n with heq | ⟨q, t, hq, hlo, -, hround⟩
  · rwa [heq]
  · have hle : roundNat n ≤ (q + 1) * 2 ^ t := by
      rcases hround with h | h <;> rw [h]
      exact Nat.mul_le_mul_right _ (by omega)
    have hgt : q * 2 ^ (t + u) < m * 2 ^ s := by
      rw [Nat.pow_add, ← Nat.mul_assoc]
      exact (Nat.mul_lt_mul_of_pos_right hlo (Nat.two_pow_pos u)).trans_le h
    calc roundNat n * 2 ^ u ≤ (q + 1) * 2 ^ t * 2 ^ u := Nat.mul_le_mul_right _ hle
      _ = (q + 1) * 2 ^ (t + u) := by rw [Nat.pow_add, ← Nat.mul_assoc]
      _ ≤ m * 2 ^ s := multiple_le hm hq hgt

theorem roundInt_natCast (n : ℕ) : roundInt (n : ℤ) = roundNat n := rfl

theorem roundInt_neg_natCast (n : ℕ) : roundInt (-(n : ℤ)) = -(roundNat n : ℤ) := by
  cases n <;> rfl

theorem natAbs_roundInt_le (n : ℤ) : (roundInt n).natAbs ≤ 2 * n.natAbs := by
  obtain ⟨n, rfl | rfl⟩ := n.eq_nat_or_neg
  · simpa [roundInt_natCast] using roundNat_le_two_mul n
  · simpa [roundInt_neg_natCast] using roundNat_le_two_mul n

/-- The places of the finite floats. -/
def IsUnits (k : ℤ) : Prop := ∃ m s : ℕ, m < 2 ^ 53 ∧ k.natAbs = m * 2 ^ s

theorem IsUnits.neg {k : ℤ} (h : IsUnits k) : IsUnits (-k) := by
  unfold IsUnits
  rwa [Int.natAbs_neg]

theorem significand_lt {x : Float} {negative : Bool} (h : ofFloat x = .finite negative m s) :
    m < 2 ^ 53 := by
  have hfraction : x.toBits.toNat % leadingBit < 2 ^ 52 := Nat.mod_lt _ (by decide)
  have hleading : leadingBit = 2 ^ 52 := by decide
  simp only [ofFloat, ofBits] at h
  split at h
  · split at h <;> cases h
  · split at h <;> injection h <;> omega

theorem isUnits_of_ofFloat {x : Float} {k : ℤ} (h : Magnitude.ofFloat x = .finite k) :
    IsUnits k := by
  rw [Magnitude.ofFloat] at h
  cases hx : ofFloat x with
  | nan => rw [hx] at h; cases h
  | infinite negative => rw [hx] at h; cases negative <;> cases h
  | finite negative m s =>
    refine ⟨m, s, significand_lt hx, ?_⟩
    rw [hx] at h
    cases negative <;> injection h with h <;> rw [← h, Nat.shiftLeft_eq]
    · rfl
    · exact Int.natAbs_neg _

/-- Rounding passes no float on either side. -/
theorem roundInt_sides {k : ℤ} (hk : IsUnits k) (n : ℤ) (u : ℕ) :
    (k ≤ n * 2 ^ u → k ≤ roundInt n * 2 ^ u) ∧ (n * 2 ^ u ≤ k → roundInt n * 2 ^ u ≤ k) := by
  have hnat (n : ℕ) {k : ℤ} (hk : IsUnits k) : (k ≤ n * 2 ^ u → k ≤ roundNat n * 2 ^ u) ∧
      (n * 2 ^ u ≤ k → (roundNat n : ℤ) * 2 ^ u ≤ k) := by
    obtain ⟨m, s, hm, hk⟩ := hk
    have hn (n : ℕ) : (0 : ℤ) ≤ n * 2 ^ u := mod_cast Nat.zero_le (n * 2 ^ u)
    rcases le_or_gt 0 k with hpos | hneg
    · obtain ⟨k, rfl⟩ := Int.eq_ofNat_of_zero_le hpos
      obtain rfl : k = m * 2 ^ s := hk
      exact ⟨fun h => mod_cast le_roundNat hm (mod_cast h), fun h => mod_cast roundNat_le hm (mod_cast h)⟩
    · exact ⟨fun _ => hneg.le.trans (hn _), fun h => absurd ((hn n).trans h) (not_le.2 hneg)⟩
  obtain ⟨n, rfl | rfl⟩ := n.eq_nat_or_neg
  · exact hnat n hk
  · obtain ⟨hle, hge⟩ := hnat n hk.neg
    rw [roundInt_neg_natCast, neg_mul, neg_mul]
    exact ⟨fun h => by have := hge (by omega); omega, fun h => by have := hle (by omega); omega⟩

theorem compare_roundInt {k : ℤ} (hk : IsUnits k) {n : ℤ} {u : ℕ} (hne : roundInt n * 2 ^ u ≠ k) :
    Ord.compare (roundInt n * 2 ^ u) k = Ord.compare (n * 2 ^ u) k := by
  obtain ⟨hle, hge⟩ := roundInt_sides hk n u
  rcases lt_or_gt_of_ne hne with h | h
  · rw [compare_lt_iff_lt.2 h, compare_lt_iff_lt.2 (lt_of_not_ge fun hk => by have := hle hk; omega)]
  · rw [compare_gt_iff_gt.2 h, compare_gt_iff_gt.2 (lt_of_not_ge fun hk => by have := hge hk; omega)]

end Binary64

namespace Magnitude

theorem exists_unitsPerOne_eq : ∃ u : ℕ, (unitsPerOne : ℤ) = 2 ^ u := by
  have hcast (u : ℕ) : ((1 <<< u : ℕ) : ℤ) = 2 ^ u := by
    rw [Nat.shiftLeft_eq, Nat.one_mul, Nat.cast_pow, Nat.cast_ofNat]
  exact ⟨1074, hcast 1074⟩

theorem unitsPerOne_pos : (0 : ℤ) < unitsPerOne := by
  obtain ⟨u, hu⟩ := exists_unitsPerOne_eq
  exact hu ▸ Int.pow_pos (by decide)

theorem compare_finite (a b : ℤ) : Ord.compare (finite a) (finite b) = Ord.compare a b := rfl

theorem compare_ofInt (m n : ℤ) : Ord.compare (ofInt m) (ofInt n) = Ord.compare m n := by
  have hpos := unitsPerOne_pos
  rw [ofInt, ofInt, compare_finite]
  rcases lt_trichotomy m n with h | rfl | h
  · rw [compare_lt_iff_lt.2 h, compare_lt_iff_lt.2 (Int.mul_lt_mul_of_pos_right h hpos)]
  · simp
  · rw [compare_gt_iff_gt.2 h, compare_gt_iff_gt.2 (Int.mul_lt_mul_of_pos_right h hpos)]

/-- A whole number within bounds is its own whole part. -/
theorem wholePart_ofInt {n : ℤ} (h : n.natAbs < wholeLimit) : (ofInt n).wholePart = n := by
  rw [ofInt, wholePart, Int.mul_tdiv_cancel n unitsPerOne_pos.ne']
  omega

end Magnitude

/-- A whole number of 64 bits compares with a float as the exact numbers do. -/
theorem Value.compareIntFloat_eq (n : Int64) (x : Float) :
    compareIntFloat n.toInt x = Ord.compare (Magnitude.ofInt n.toInt) (Magnitude.ofFloat x) := by
  obtain ⟨u, hu⟩ := Magnitude.exists_unitsPerOne_eq
  unfold compareIntFloat
  cases hx : Magnitude.ofFloat x with
  | notANumber | negativeInfinity | positiveInfinity => rfl
  | finite k =>
    show (Ord.compare (Magnitude.ofInt (Binary64.roundInt n.toInt)) (.finite k)).then _ = _
    by_cases heq : Binary64.roundInt n.toInt * 2 ^ u = k
    · have hbound : (Binary64.roundInt n.toInt).natAbs < Magnitude.wholeLimit := by
        have hround := Binary64.natAbs_roundInt_le n.toInt
        have hlo : -2 ^ 63 ≤ n.toInt := n.minValue_le_toInt
        have hhi : n.toInt ≤ 2 ^ 63 - 1 := n.toInt_le
        have : Magnitude.wholeLimit = 2 ^ 127 := by decide
        omega
      rw [show Magnitude.finite k = Magnitude.ofInt (Binary64.roundInt n.toInt) by
        rw [Magnitude.ofInt, hu, heq], Std.ReflOrd.compare_self, Magnitude.wholePart_ofInt hbound,
        Magnitude.compare_ofInt]
      rfl
    · have hround := Binary64.compare_roundInt (Binary64.isUnits_of_ofFloat hx) heq
      rw [Magnitude.ofInt, Magnitude.ofInt, Magnitude.compare_finite, Magnitude.compare_finite, hu, ← hround]
      cases hord : Ord.compare (Binary64.roundInt n.toInt * 2 ^ u) k with
      | lt | gt => rfl
      | eq => exact absurd (compare_eq_iff_eq.1 hord) heq

end JoinPlanner
