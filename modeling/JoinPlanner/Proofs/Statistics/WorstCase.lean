import JoinPlanner.Proofs.Statistics.Sample
import JoinPlanner.Proofs.Statistics.Selectivity

/-!
# The worst case of a comparison

The estimate of a comparison with an unknown constant is at least that of the range of any constant, except for
one case: of a column all of whose points are NULL it is 0 for `<>` and the order comparisons, while every range
that is not empty counts for one point (`ColumnProfile.selectivity_le_worstSelectivity_iff`). The points of one
value stand side by side, since a sample is sorted (`ColumnProfile.sorted_of_sample`), so that the longest run is
at least as long as the points of any constant are many (`ColumnProfile.countP_le_longestRun`).
-/

namespace JoinPlanner

namespace ColumnProfile

variable {p : ColumnProfile} {op : Comparison} {v : Value} {points : List Value} {nulls : Bool}

/-- The points equal to a value are one run. -/
theorem countP_le_longestRun (h : Sorted points) (hv : v.isNull = true → nulls = true) :
    points.countP (fun x => compare x v == .eq) ≤ longestRun nulls points := by
  have hblock : points.countP (fun x => compare x v == .eq) = (points.filter (·.place = v.place)).length := by
    rw [List.countP_eq_length_filter]
    exact congrArg List.length (List.filter_congr fun x _ => by
      rw [Bool.eq_iff_iff, beq_iff_eq, decide_eq_true_iff, Value.compare_eq_iff])
  rw [hblock]
  by_cases hne : points.filter (·.place = v.place) = []
  · rw [hne]
    exact Nat.zero_le _
  · refine (foldl_max_le_iff.1 le_rfl).2 _ (List.mem_map_of_mem (List.mem_filter.2 ⟨?_, ?_⟩))
    · exact filter_mem_splitBy (fun a b => Value.beq_iff) (sorted_iff.1 h) hne
    · rw [Bool.or_eq_true, Bool.not_eq_true', List.any_eq_false]
      cases hnull : v.isNull with
      | true => exact .inl (hv hnull)
      | false =>
        refine .inr fun x hx => ?_
        rw [Value.isNull_congr (of_decide_eq_true (List.mem_filter.1 hx).2), hnull]
        exact Bool.false_ne_true

/-- The greatest share of the rows that the comparison with one value keeps, as it is estimated. -/
def worstSelectivity (p : ColumnProfile) (op : Comparison) : ℚ := p.estimateComparison op / divisionPoints

/-- Every point is NULL, and the comparison is one that counts the other points. -/
def Unseen (p : ColumnProfile) (op : Comparison) : Prop :=
  p.isSampled = true ∧ (∀ v ∈ p.points, v.isNull = true) ∧ op.isEquality = false ∧ op.seesNull = false

theorem estimateComparison_of_not_isSampled (h : p.isSampled = false) (op : Comparison) :
    p.estimateComparison op = divisionPoints := by
  unfold estimateComparison
  rw [h]
  rfl

theorem estimateComparison_of_isEquality (h : p.isSampled = true) (hop : op.isEquality = true) :
    p.estimateComparison op = max 1 (longestRun op.seesNull p.points) := by
  unfold estimateComparison
  rw [h, Bool.not_true, if_neg Bool.false_ne_true]
  cases op with
  | eq | is => rfl
  | _ => cases hop

theorem estimateComparison_of_not_seesNull (h : p.isSampled = true) (hop : op.isEquality = false)
    (hnull : op.seesNull = false) : p.estimateComparison op = p.points.countP (!·.isNull) := by
  unfold estimateComparison
  rw [h, Bool.not_true, if_neg Bool.false_ne_true]
  cases op with
  | eq | is => cases hop
  | isNot => cases hnull
  | _ => rfl

theorem isEmpty_comparing (hop : op.isEquality = false) (hnull : op.seesNull = false) (hv : v.isNull = false) :
    (KeyRange.comparing op [v]).isEmpty = false := by
  rw [KeyRange.comparing, KeyRange.isEmpty_ofIntervals]
  cases op with
  | eq | is => cases hop
  | isNot => cases hnull
  | _ => simp [KeyRange.comparisonIntervals, KeyInterval.isEmpty, KeyBound.compare, Key.beginsWithNull, hv]

theorem hits_comparing (hv : v.isNull = true → op.seesNull = true) : p.hits (.comparing op [v]) =
    p.points.countP fun x => op.holds (compare x v) && (op.seesNull || !x.isNull) := by
  simp only [hits, KeyRange.contains_comparing hv]

theorem estimateRange_comparing_le (hsorted : Sorted p.points) (hv : v.isNull = true → op.seesNull = true)
    (h : ¬ p.Unseen op) : p.estimateRange (.comparing op [v]) ≤ p.estimateComparison op := by
  cases hs : p.isSampled with
  | false => rw [estimateComparison_of_not_isSampled hs]; exact p.estimateRange_le _
  | true =>
    rcases op.isEquality_or with hop | ⟨hop, hnull⟩ | rfl
    · rw [estimateComparison_of_isEquality hs hop, estimateRange_le_iff hs, hits_comparing hv]
      refine ⟨fun _ => le_max_left _ _, le_trans ?_ ((countP_le_longestRun hsorted hv).trans (le_max_right _ _))⟩
      refine List.countP_mono_left fun x _ hx => ?_
      cases op with
      | eq | is => exact (Bool.and_eq_true_iff.1 hx).1
      | _ => cases hop
    · rw [estimateComparison_of_not_seesNull hs hop hnull, estimateRange_le_iff hs, hits_comparing hv]
      refine ⟨fun _ => List.countP_pos_iff.2 ?_, List.countP_mono_left fun x _ hx => ?_⟩
      · by_contra hnone
        refine h ⟨hs, fun x hx => ?_, hop, hnull⟩
        by_contra hx'
        exact hnone ⟨x, hx, by simpa using hx'⟩
      · rw [hnull, Bool.false_or, Bool.and_eq_true] at hx
        exact hx.2
    · exact (p.estimateRange_le _).trans (by rw [estimateComparison, hs]; rfl)

theorem estimates_of_unseen (hv : v.isNull = true → op.seesNull = true) (h : p.Unseen op) :
    p.estimateComparison op = 0 ∧ p.estimateRange (.comparing op [v]) = 1 := by
  obtain ⟨hs, hall, hop, hnull⟩ := h
  have hv' : v.isNull = false := Bool.eq_false_iff.2 fun h => by rw [hv h] at hnull; cases hnull
  have hnone : p.hits (.comparing op [v]) = 0 := by
    rw [hits_comparing hv, List.countP_eq_zero]
    intro x hx
    simp [hnull, hall x hx]
  refine ⟨?_, le_antisymm ((estimateRange_le_iff hs).2 ⟨fun _ => le_rfl, by omega⟩) ?_⟩
  · rw [estimateComparison_of_not_seesNull hs hop hnull, List.countP_eq_zero]
    intro x hx
    simp [hall x hx]
  · exact ((estimateRange_le_iff hs).1 le_rfl).1 (isEmpty_comparing hop hnull hv')

/-- The estimate of a comparison with an unknown constant is at least that with any constant, unless all points
are NULL and the comparison counts those that are not. -/
theorem selectivity_le_worstSelectivity_iff (hsorted : Sorted p.points) (hv : v.isNull = true → op.seesNull = true) :
    ∃ r, KeyRange.ofComparison op [v] = .ok r ∧ (p.selectivity r ≤ p.worstSelectivity op ↔ ¬ p.Unseen op) ∧
      (p.Unseen op → p.worstSelectivity op = 0 ∧ p.selectivity r = 1 / 32) := by
  have hunseen (h : p.Unseen op) : p.worstSelectivity op = 0 ∧ p.selectivity (.comparing op [v]) = 1 / 32 := by
    obtain ⟨hop, hrange⟩ := estimates_of_unseen hv h
    rw [worstSelectivity, selectivity, hop, hrange]
    norm_num [divisionPoints]
  refine ⟨_, rfl, ⟨fun hle h => ?_, fun h => ?_⟩, hunseen⟩
  · rw [(hunseen h).1, (hunseen h).2] at hle
    norm_num at hle
  · exact div_le_div_of_nonneg_right (Nat.cast_le.2 (estimateRange_comparing_le hsorted hv h)) (Nat.cast_nonneg _)

/-- A table of 64 rows, every second one with a NULL. -/
def halfNull : Table where
  columns := ["x"]
  rows := ⟨(List.range 64).map fun i => [if i % 2 = 0 then .null else .int (.ofNat i)]⟩

/-- All rows that are sampled have a NULL. -/
theorem sample_halfNull : sample ⟨[(⟨none, "t"⟩, halfNull)]⟩ ⟨⟨none, "t"⟩, "x"⟩ =
    .ok ⟨64, 32, List.replicate 32 .null⟩ := by
  have htable : Catalog.table ⟨[(⟨none, "t"⟩, halfNull)]⟩ ⟨none, "t"⟩ = .ok halfNull := by
    rw [Catalog.table, List.lookup_cons_self]
  have hposition : halfNull.position ⟨none, "t"⟩ "x" = .ok 0 := rfl
  have hvalues : (samplePositions 64 32).map (halfNull.value · 0) = List.replicate 32 .null := rfl
  have hsorted : (List.replicate 32 Value.null).Pairwise fun v w => (compare v w != .gt) = true := by
    decide +kernel
  rw [sample, sampleInBatches_eq htable hposition (by decide)]
  change Except.ok (ColumnProfile.mk 64 32
    (pointsOf (List.mergeSort ((samplePositions 64 32).map (halfNull.value · 0)) _).toArray)) = _
  rw [hvalues, List.mergeSort_of_pairwise hsorted]
  rfl

/-- Half of the rows are greater than 0, one in 32 is expected to be, and none to be greater than some constant. -/
theorem selectivity_le_worstSelectivity_iff_halfNull : ∃ p r,
    sample ⟨[(⟨none, "t"⟩, halfNull)]⟩ ⟨⟨none, "t"⟩, "x"⟩ = .ok p ∧ KeyRange.ofComparison .gt [.int 0] = .ok r ∧
    ¬ p.selectivity r ≤ p.worstSelectivity .gt ∧ p.worstSelectivity .gt = 0 ∧ p.selectivity r = 1 / 32 ∧
    halfNull.rows.toList.countP r.contains = 32 := by
  have hunseen : Unseen ⟨64, 32, List.replicate 32 .null⟩ .gt := ⟨rfl, by decide, rfl, rfl⟩
  have hsees : (Value.int 0).isNull = true → Comparison.gt.seesNull = true := nofun
  obtain ⟨r, hr, hiff, hvalues⟩ := selectivity_le_worstSelectivity_iff (sorted_of_sample sample_halfNull) hsees
  obtain ⟨hworst, hrange⟩ := hvalues hunseen
  refine ⟨_, r, sample_halfNull, hr, fun hle => hiff.1 hle hunseen, hworst, hrange, ?_⟩
  cases hr
  decide +kernel

end ColumnProfile

end JoinPlanner
