import JoinPlanner.Proofs.Lists
import JoinPlanner.Proofs.Range.Equality
import JoinPlanner.Proofs.Range.Normal
import JoinPlanner.Proofs.Statistics.Profile
import Mathlib.Algebra.Order.Field.Basic
import Mathlib.Algebra.Order.Field.Rat
import Mathlib.Tactic.NormNum

/-!
# Selectivity of ranges

A range has at most the selectivity of a range that it lies in, and two ranges together have at most the sum of
theirs (`ColumnProfile.selectivity_union`). That one point is counted for every range that is not empty changes
neither: an estimate is the least number that is at least the number of points in the range, and at least 1 if
the range is not empty (`ColumnProfile.estimateRange_le_iff`).
-/

namespace JoinPlanner.ColumnProfile

variable {p : ColumnProfile} {r s u : KeyRange} {n : ℕ}

/-- The share of the rows that lie in the range. -/
def selectivity (p : ColumnProfile) (r : KeyRange) : ℚ := p.estimateRange r / divisionPoints

/-- The number of points in a range of single values. -/
def hits (p : ColumnProfile) (r : KeyRange) : ℕ := p.points.countP fun v => r.contains [v]

theorem estimateRange_of_not_isSampled (h : p.isSampled = false) (r : KeyRange) :
    p.estimateRange r = divisionPoints := by
  rw [estimateRange, h]
  rfl

theorem hits_of_isEmpty (h : r.isEmpty = true) : p.hits r = 0 :=
  List.countP_eq_zero.2 fun v _ => by simp [KeyRange.contains_of_isEmpty h]

theorem estimateRange_le_iff (h : p.isSampled = true) :
    p.estimateRange r ≤ n ↔ (r.isEmpty = false → 1 ≤ n) ∧ p.hits r ≤ n := by
  rw [estimateRange, h, Bool.not_true, if_neg Bool.false_ne_true]
  cases hempty : r.isEmpty with
  | true => simp [hits_of_isEmpty hempty]
  | false => simp [hits]

theorem estimateRange_mono (hempty : s.isEmpty = true → r.isEmpty = true)
    (hcontains : ∀ v, r.contains [v] = true → s.contains [v] = true) : p.estimateRange r ≤ p.estimateRange s := by
  cases h : p.isSampled with
  | false => rw [estimateRange_of_not_isSampled h, estimateRange_of_not_isSampled h]
  | true =>
    obtain ⟨hs, hhits⟩ := (estimateRange_le_iff (r := s) h).1 le_rfl
    refine (estimateRange_le_iff h).2 ⟨fun hr => hs ?_, ?_⟩
    · exact Bool.eq_false_iff.2 fun hs => Bool.eq_false_iff.1 hr (hempty hs)
    · exact (List.countP_mono_left fun v _ => hcontains v).trans hhits

theorem estimateRange_le_add (hempty : u.isEmpty = (r.isEmpty && s.isEmpty))
    (hcontains : ∀ v, u.contains [v] = (r.contains [v] || s.contains [v])) :
    p.estimateRange u ≤ p.estimateRange r + p.estimateRange s := by
  cases h : p.isSampled with
  | false =>
    rw [estimateRange_of_not_isSampled h, estimateRange_of_not_isSampled h]
    exact Nat.le_add_right _ _
  | true =>
    obtain ⟨hr, hhitsr⟩ := (estimateRange_le_iff (r := r) h).1 le_rfl
    obtain ⟨hs, hhitss⟩ := (estimateRange_le_iff (r := s) h).1 le_rfl
    refine (estimateRange_le_iff h).2 ⟨fun hu => ?_, ?_⟩
    · rw [hempty, Bool.and_eq_false_iff] at hu
      rcases hu with hu | hu
      · exact (hr hu).trans (Nat.le_add_right _ _)
      · exact (hs hu).trans (Nat.le_add_left _ _)
    · calc p.hits u ≤ p.hits r + p.hits s := by
            simp only [hits, hcontains]
            exact countP_or_le _ _ _
        _ ≤ p.estimateRange r + p.estimateRange s := Nat.add_le_add hhitsr hhitss

theorem estimateRange_of_isFull (h : r.isFull = true) : p.estimateRange r = divisionPoints := by
  refine (p.estimateRange_le r).antisymm ?_
  cases hs : p.isSampled with
  | false => rw [estimateRange_of_not_isSampled hs]
  | true =>
    refine le_trans ?_ ((estimateRange_le_iff hs).1 le_rfl).2
    rw [← length_points hs]
    exact (List.countP_eq_length.2 fun v _ => KeyRange.contains_of_isFull h).ge

theorem selectivity_nonneg (p : ColumnProfile) (r : KeyRange) : 0 ≤ p.selectivity r :=
  div_nonneg (Nat.cast_nonneg _) (Nat.cast_nonneg _)

theorem selectivity_le_one (p : ColumnProfile) (r : KeyRange) : p.selectivity r ≤ 1 :=
  div_le_one_of_le₀ (Nat.cast_le.2 (p.estimateRange_le r)) (Nat.cast_nonneg _)

theorem selectivity_of_isFull (h : r.isFull = true) : p.selectivity r = 1 := by
  rw [selectivity, estimateRange_of_isFull h]
  exact div_self (by norm_num [divisionPoints])

/-- Selectivities of ranges of one column lie between 0 and 1, that of all values is 1, and they are monotone and
subadditive: a range that adds nothing to another has at most its selectivity, and a union at most the sum. -/
theorem selectivity_union (p : ColumnProfile) (hr : r.Obtained) (hs : s.Obtained) (hwr : r.width = 1)
    (hws : s.width = 1) : (0 ≤ p.selectivity r ∧ p.selectivity r ≤ 1) ∧ p.selectivity (.full 1) = 1 ∧
      ∃ u, r.union s = .ok u ∧ ((u == s) = true → p.selectivity r ≤ p.selectivity s) ∧
        p.selectivity u ≤ p.selectivity r + p.selectivity s := by
  have hwidth : r.width = s.width := hwr.trans hws.symm
  have hempty := KeyRange.isEmpty_unionSameWidth (r := r) (s := s)
  have hcontains (v : Value) : (r.unionSameWidth s).contains [v] = (r.contains [v] || s.contains [v]) :=
    KeyRange.contains_unionSameWidth (hr.wellFormed (by omega)) (hs.wellFormed (by omega)) hwidth hwr.le
  refine ⟨⟨p.selectivity_nonneg r, p.selectivity_le_one r⟩, selectivity_of_isFull rfl, _,
    KeyRange.union_eq_ok.2 ⟨hwidth, rfl⟩, fun heq => ?_, ?_⟩
  · have hmono : p.estimateRange r ≤ p.estimateRange s := by
      refine estimateRange_mono (fun hs => ?_) fun v hv => ?_
      · rw [← KeyRange.isEmpty_congr heq, hempty, Bool.and_eq_true] at hs
        exact hs.1
      · rw [← KeyRange.contains_congr heq, hcontains, hv, Bool.true_or]
    exact div_le_div_of_nonneg_right (Nat.cast_le.2 hmono) (Nat.cast_nonneg _)
  · have hadd : p.estimateRange (r.unionSameWidth s) ≤ p.estimateRange r + p.estimateRange s :=
      estimateRange_le_add hempty hcontains
    rw [selectivity, selectivity, selectivity, ← add_div]
    exact div_le_div_of_nonneg_right (mod_cast hadd) (Nat.cast_nonneg _)

/-- Twenty points of NULL and twelve of 4. -/
def mostlyNull : ColumnProfile := ⟨64, 32, List.replicate 20 .null ++ List.replicate 12 (.int 4)⟩

/-- The value 5 lies above 4, and neither range has a point. -/
theorem selectivity_union_mostlyNull : ∃ u, (KeyRange.comparing .eq [.int 5]).union (.comparing .gt [.int 4]) = .ok u ∧
    (u == KeyRange.comparing .gt [.int 4]) = true ∧
    mostlyNull.selectivity (.comparing .eq [.int 5]) ≤ mostlyNull.selectivity (.comparing .gt [.int 4]) ∧
    mostlyNull.selectivity u ≤
      mostlyNull.selectivity (.comparing .eq [.int 5]) + mostlyNull.selectivity (.comparing .gt [.int 4]) := by
  obtain ⟨-, -, u, hu, hmono, hadd⟩ := mostlyNull.selectivity_union
    (KeyRange.obtained_comparing .eq (List.cons_ne_nil (.int 5) []))
    (KeyRange.obtained_comparing .gt (List.cons_ne_nil (.int 4) [])) rfl rfl
  have heq : (u == KeyRange.comparing .gt [.int 4]) = true := by
    obtain ⟨-, rfl⟩ := KeyRange.union_eq_ok.1 hu
    decide +kernel
  exact ⟨u, hu, heq, hmono heq, hadd⟩

end JoinPlanner.ColumnProfile
