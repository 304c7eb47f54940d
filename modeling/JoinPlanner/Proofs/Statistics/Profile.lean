import JoinPlanner.Proofs.Lists
import JoinPlanner.Statistics.Column
import Mathlib.Algebra.Order.BigOperators.Group.List
import Mathlib.Algebra.Module.NatInt
import Mathlib.Algebra.Order.Ring.Nat
import Mathlib.Data.List.SplitBy

/-!
# Bounds of column profiles

A profile that is sampled has 32 division points, so that what it counts of them is at most 32, and what two
profiles count of their pairs of points is at most 32 times 32.
-/

namespace JoinPlanner

namespace ColumnProfile

theorem longestRun_le (nulls : Bool) (points : List Value) : longestRun nulls points ≤ points.length := by
  have hrun : ∀ run ∈ (points.splitBy (· == ·)).filter fun run => nulls || !run.any Value.isNull,
      run.length ≤ points.length := by
    intro run hrun
    have hsub := List.sublist_flatten_of_mem (List.mem_of_mem_filter hrun)
    rw [List.flatten_splitBy] at hsub
    exact hsub.length_le
  refine foldl_max_le_iff.2 ⟨Nat.zero_le _, fun n hn => ?_⟩
  obtain ⟨run, hmem, rfl⟩ := List.mem_map.1 hn
  exact hrun run hmem

theorem length_points {p : ColumnProfile} (h : p.isSampled = true) : p.points.length = divisionPoints := by
  simpa [isSampled] using h

theorem estimateComparison_le (p : ColumnProfile) (op : Comparison) :
    p.estimateComparison op ≤ divisionPoints := by
  unfold estimateComparison
  by_cases h : p.isSampled = true
  · have hlen := length_points h
    have hrun (nulls : Bool) : max 1 (longestRun nulls p.points) ≤ divisionPoints :=
      max_le (by decide) (hlen ▸ longestRun_le nulls p.points)
    rw [h, Bool.not_true, if_neg Bool.false_ne_true]
    cases op <;> first | exact hrun _ | exact le_rfl | exact hlen ▸ List.countP_le_length
  · rw [Bool.eq_false_iff.2 h]
    exact le_rfl

theorem estimateRange_le (p : ColumnProfile) (range : KeyRange) : p.estimateRange range ≤ divisionPoints := by
  unfold estimateRange
  by_cases h : p.isSampled = true
  · rw [h, Bool.not_true, if_neg Bool.false_ne_true]
    split
    · exact Nat.zero_le _
    · exact max_le (by decide) (length_points h ▸ List.countP_le_length)
  · rw [Bool.eq_false_iff.2 h]
    exact le_rfl

/-- Two profiles have no more pairs of equal points than pairs of points. -/
theorem matchingPoints_le {p q : ColumnProfile} (hp : p.isSampled = true) (hq : q.isSampled = true) :
    p.matchingPoints q ≤ divisionPoints * divisionPoints := by
  rw [matchingPoints, List.length_flatMap]
  refine (List.sum_le_card_nsmul _ divisionPoints fun n hn => ?_).trans ?_
  · obtain ⟨v, -, rfl⟩ := List.mem_map.1 hn
    exact length_points hq ▸ List.length_filter_le _ _
  · rw [List.length_map, smul_eq_mul, length_points hp]

end ColumnProfile

end JoinPlanner
