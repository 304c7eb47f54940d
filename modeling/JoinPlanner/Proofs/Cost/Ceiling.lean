import JoinPlanner.Proofs.Cost.Bounds
import JoinPlanner.Proofs.Statistics.Profile
import Mathlib.Algebra.Order.Field.Basic
import Mathlib.Tactic.Linarith
import Mathlib.Tactic.NormNum
import Mathlib.Tactic.Positivity

/-!
# Bounds of costs from above

Under the standard configuration no filter and no join has more rows than all rows of its inputs paired, and each
takes little more than to visit these pairs once: a filter no more than a visit of every row or two lookups, a
join no more than five visits of each row on the left and two of each on the right, or than to compare every two
rows at the penalty. `Cost.AtMost` says so of one cost, and the rules of the model keep it
(`FilterRule.atMost_select`, `JoinRule.atMost`).
-/

namespace JoinPlanner

open CostNumber (ofCount infinity)

/-- The rows and the time are rational numbers up to given ones. -/
structure Cost.AtMost (c : Cost Exact) (rows time : ℚ) : Prop where
  rows : ∃ q : ℚ, c.rows = q ∧ 0 ≤ q ∧ q ≤ rows
  time : ∃ q : ℚ, c.time = q ∧ q ≤ time

theorem Cost.AtMost.mono {c : Cost Exact} {rows rows' time time' : ℚ} (h : c.AtMost rows time)
    (hrows : rows ≤ rows') (htime : time ≤ time') : c.AtMost rows' time' := by
  obtain ⟨⟨q, hq, hnonneg, hle⟩, ⟨t, ht, htle⟩⟩ := h
  exact ⟨⟨q, hq, hnonneg, hle.trans hrows⟩, ⟨t, ht, htle.trans htime⟩⟩

namespace CostContext

section Selectivity

variable {κ : Type} {ctx : CostContext κ} {s : Session κ} {points : ℕ}

theorem termSelectivity_le {term : Expr} (h : (ctx.termSelectivity term).result s = .ok points) :
    points ≤ divisionPoints := by
  unfold termSelectivity at h
  split at h
  · obtain ⟨p, -, h⟩ := Repeatable.of_result_bind_eq_ok h (.profile _) fun _ => .pure _
    cases h
    exact p.estimateRange_le _
  · split at h
    · obtain ⟨p, -, h⟩ := Repeatable.of_result_bind_eq_ok h (.profile _) fun _ => .pure _
      cases h
      exact p.estimateComparison_le _
    · cases h
      exact le_rfl
  · cases h
    exact le_rfl

theorem selectivity_le {predicate : Expr} (h : (ctx.selectivity predicate).result s = .ok points) :
    points ≤ divisionPoints := by
  have hfold (terms : List Expr) (best : ℕ) (h : (terms.foldlM
      (fun best term => do return min best (← ctx.termSelectivity term)) best).result s = .ok points) :
      points ≤ best := by
    induction terms generalizing best with
    | nil =>
      cases h
      exact le_rfl
    | cons term terms ih =>
      rw [List.foldlM_cons, bind_assoc] at h
      obtain ⟨n, -, h⟩ := Repeatable.of_result_bind_eq_ok h (.termSelectivity term) fun n => by
        rw [pure_bind]
        exact .foldlM (fun best term => .bind_run (.termSelectivity term) fun _ => .pure _) _ _
      rw [pure_bind] at h
      exact (ih _ h).trans (min_le_left _ _)
  unfold selectivity at h
  split at h
  · exact termSelectivity_le h
  · exact termSelectivity_le h
  · exact hfold _ _ h

end Selectivity

variable {ctx : CostContext Exact} {s : Session Exact} {c l r input : Cost Exact} {P Q T U : ℚ}
  (hconfig : ctx.config = .standard Exact)

include hconfig

theorem twoLookups_eq : ctx.twoLookups = ((4 : ℚ) : Exact) := by
  rw [twoLookups, hconfig]
  show ((2 : ℚ) : Exact) * ((2 : ℚ) : Exact) = _
  rw [← WithTop.coe_mul]
  norm_num

theorem scanFactor_eq : ctx.config.scanFactor = ((1 : ℚ) : Exact) := by
  rw [hconfig]
  exact congrArg _ Nat.cast_one

theorem noRelationPenalty_eq : ctx.config.noRelationPenalty = ((11 / 10 : ℚ) : Exact) := by
  rw [hconfig]
  exact Exact.coe_div 11 (by norm_num)

namespace FilterRule

variable {child : Plan Exact}

/-- A filter has no more rows than its input, and takes a visit of each of these or two lookups. -/
theorem atMost_select {predicate : Expr} {path : Option AccessPath} (hinput : input.AtMost P T)
    (h : ctx.FilterRule s child input (.select predicate path) c) : c.AtMost P (T + max P 4) := by
  obtain ⟨⟨q, hq, hnonneg, hle⟩, ⟨t, ht, htle⟩⟩ := hinput
  cases h with
  | @probed _ _ count _ =>
    refine ⟨⟨min count q, ?_, le_min count.cast_nonneg hnonneg, (min_le_right _ _).trans hle⟩, t + 4, ?_, ?_⟩
    · rw [Exact.min_eq, Exact.ofCount_eq, hq, WithTop.coe_min]
    · rw [ht, twoLookups_eq hconfig, WithTop.coe_add]
    · linarith [le_max_right P 4]
  | @scanned _ _ points _ hpoints =>
    have hshare : (points / divisionPoints : ℚ) ≤ 1 := by
      rw [div_le_one (by decide)]
      exact_mod_cast selectivity_le hpoints
    have hshare_nonneg : (0 : ℚ) ≤ points / divisionPoints := div_nonneg points.cast_nonneg (Nat.cast_nonneg _)
    refine ⟨⟨q * (points / divisionPoints), ?_, mul_nonneg hnonneg hshare_nonneg, ?_⟩, t + q, ?_, ?_⟩
    · rw [hq, Exact.ofCount_eq, Exact.ofCount_eq, Exact.coe_div _ (by decide), WithTop.coe_mul]
    · exact (mul_le_of_le_one_right hnonneg hshare).trans hle
    · rw [ht, hq, scanFactor_eq hconfig, ← WithTop.coe_mul, mul_one, WithTop.coe_add]
    · linarith [le_max_left P 4]

end FilterRule

/-- A join by a simple relation has no more rows than pairs of rows. -/
theorem relationRows_atMost {op : Comparison} {probability : Option Exact}
    (hp : ∀ p, probability = some p → 0 ≤ p ∧ p ≤ 1) {x y : ℚ} (hx : 0 ≤ x) (hy : 0 ≤ y) (hxP : x ≤ P) (hyQ : y ≤ Q)
    (hP : 1 ≤ P) (hQ : 1 ≤ Q) :
    ∃ q : ℚ, ctx.relationRows op probability x y = q ∧ 0 ≤ q ∧ q ≤ P * Q := by
  have hxy : x * y ≤ P * Q := mul_le_mul hxP hyQ hy (by linarith)
  have hxy_nonneg : 0 ≤ x * y := mul_nonneg hx hy
  unfold relationRows
  rw [hconfig]
  split
  case h_1 p =>
    obtain ⟨hp0, hp1⟩ := hp p rfl
    lift p to ℚ using ne_top_of_le_ne_top WithTop.one_ne_top hp1
    have hp0 : 0 ≤ p := WithTop.coe_nonneg.1 hp0
    have hp1 : p ≤ 1 := WithTop.coe_le_one.1 hp1
    refine ⟨p * x * y, by rw [WithTop.coe_mul, WithTop.coe_mul], by positivity, ?_⟩
    nlinarith
  case h_2 =>
    split
    · refine ⟨min x y + |y - x| / 3, ?_, by positivity, ?_⟩
      · rw [Exact.min_eq, Exact.coe_sub, Exact.abs_coe]
        show _ + ((|y - x| : ℚ) : Exact) / ((3 : ℚ) : Exact) = _
        rw [Exact.coe_div _ (by norm_num), WithTop.coe_add, WithTop.coe_min]
      · have hspread : max x y - min x y = |y - x| := max_sub_min_eq_abs x y
        have hmax : max x y ≤ P * Q :=
          max_le (hxP.trans (le_mul_of_one_le_right (by linarith) hQ))
            (hyQ.trans (le_mul_of_one_le_left (by linarith) hP))
        linarith [abs_nonneg (y - x)]
    · refine ⟨85 / 100 * x * y, ?_, by positivity, by linarith⟩
      show ((85 : ℚ) : Exact) / ((100 : ℚ) : Exact) * x * y = _
      rw [Exact.coe_div _ (by norm_num), WithTop.coe_mul, WithTop.coe_mul]

/-- The condition of a join has no more rows than pairs of rows, and takes five visits of each row on the left and
two of each on the right, or a comparison of every two rows. -/
theorem conditionCost_atMost {probability : Option Exact} (hp : ∀ p, probability = some p → 0 ≤ p ∧ p ≤ 1)
    (hl : l.AtMost P T) (hr : r.AtMost Q U) (hP : 1 ≤ P) (hQ : 1 ≤ Q) (relation : Option SimpleRelation)
    (hints : JoinHints) : (ctx.conditionCost relation hints probability l r).AtMost (P * Q)
      (T + U + max (5 * P + 2 * Q) (11 / 10 * (P * Q))) := by
  obtain ⟨⟨x, hx, hx0, hxP⟩, ⟨t, ht, htT⟩⟩ := hl
  obtain ⟨⟨y, hy, hy0, hyQ⟩, ⟨u, hu, huU⟩⟩ := hr
  have hlookups : 5 * P + 2 * Q ≤ max (5 * P + 2 * Q) (11 / 10 * (P * Q)) := le_max_left _ _
  have hpairs : 11 / 10 * (P * Q) ≤ max (5 * P + 2 * Q) (11 / 10 * (P * Q)) := le_max_right _ _
  have hxy : x * y ≤ P * Q := mul_le_mul hxP hyQ hy0 (by linarith)
  cases relation with
  | some relation =>
    refine ⟨?_, ?_⟩
    · rw [show (ctx.conditionCost (some relation) hints probability l r).rows =
        ctx.relationRows relation.op probability l.rows r.rows from rfl, hx, hy]
      exact relationRows_atMost hconfig hp hx0 hy0 hxP hyQ hP hQ
    · have hscan : l.time + r.time + l.rows * (ctx.config.scanFactor + ctx.twoLookups) =
          ((t + u + x * (1 + 4) : ℚ) : Exact) := by
        rw [ht, hu, hx, scanFactor_eq hconfig, twoLookups_eq hconfig, WithTop.coe_add, WithTop.coe_add,
          WithTop.coe_mul, WithTop.coe_add]
      unfold conditionCost
      dsimp only
      rw [hscan]
      split
      · exact ⟨_, rfl, by linarith⟩
      · refine ⟨t + u + x * (1 + 4) + y * 2, ?_, by linarith⟩
        rw [hy, hconfig, WithTop.coe_add _ (y * 2), WithTop.coe_mul]
        rfl
  | none =>
    refine ⟨⟨x * y, ?_, mul_nonneg hx0 hy0, hxy⟩, ⟨t + u + x * y * 1 * (11 / 10), ?_, by linarith⟩⟩
    · show l.rows * r.rows = _
      rw [hx, hy, WithTop.coe_mul]
    · show l.time + r.time + l.rows * r.rows * ctx.config.scanFactor * ctx.config.noRelationPenalty = _
      rw [ht, hu, hx, hy, scanFactor_eq hconfig, noRelationPenalty_eq hconfig, WithTop.coe_add, WithTop.coe_add,
        WithTop.coe_mul, WithTop.coe_mul, WithTop.coe_mul]

omit hconfig

namespace JoinRule

variable {cost : Cost Exact}

/-- Cartesian joins cost nothing. -/
theorem atMost_cartesian (h : JoinRule cost l r .cartesian c) (hl : l.AtMost P T) (hr : r.AtMost Q U) :
    c.AtMost (P * Q) (T + U) := by
  cases h
  obtain ⟨⟨x, hx, hx0, hxP⟩, ⟨t, ht, htT⟩⟩ := hl
  obtain ⟨⟨y, hy, hy0, hyQ⟩, ⟨u, hu, huU⟩⟩ := hr
  refine ⟨⟨x * y, ?_, mul_nonneg hx0 hy0, mul_le_mul hxP hyQ hy0 (hx0.trans hxP)⟩, ⟨t + u, ?_, add_le_add htT huU⟩⟩
  · show l.rows * r.rows = _
    rw [hx, hy, WithTop.coe_mul]
  · show l.time + r.time = _
    rw [ht, hu, WithTop.coe_add]

/-- A join takes no longer than its condition, and has no more rows than pairs of rows. -/
theorem atMost {kind : JoinKind} {time : ℚ} (h : JoinRule cost l r kind c)
    (hcost : cost.AtMost (P * Q) time) (hl : l.AtMost P T) (hr : r.AtMost Q U) (hP : 1 ≤ P) (hQ : 1 ≤ Q)
    (htime : T + U ≤ time) : c.AtMost (P * Q) time := by
  cases h with
  | cartesian => exact (atMost_cartesian (.cartesian : JoinRule cost l r _ _) hl hr).mono le_rfl htime
  | inner | outer _ => exact hcost
  | raised _ =>
    refine ⟨?_, hcost.time⟩
    obtain ⟨x, hx, hx0, hxP⟩ := hl.rows
    exact ⟨x, hx, hx0, hxP.trans (le_mul_of_one_le_right (by linarith) hQ)⟩

end JoinRule

include hconfig

theorem joinCost_atMost (hfacts : s.statistics.Probable) {kind : JoinKind} {left right : Plan Exact}
    {on : Option Expr} {hints : JoinHints} (h : (ctx.joinCost kind left right on hints l r).result s = .ok c)
    (hl : l.AtMost P T) (hr : r.AtMost Q U) (hP : 1 ≤ P) (hQ : 1 ≤ Q) :
    c.AtMost (P * Q) (T + U + max (5 * P + 2 * Q) (11 / 10 * (P * Q))) := by
  have hp (p : Exact) (h : hints.fact.bind s.statistics.fact? = some p) : 0 ≤ p ∧ p ≤ 1 := by
    obtain ⟨key, -, hkey⟩ := Option.bind_eq_some_iff.1 h
    exact hfacts key p hkey
  have htime : T + U ≤ T + U + max (5 * P + 2 * Q) (11 / 10 * (P * Q)) := by
    linarith [le_max_left (5 * P + 2 * Q) (11 / 10 * (P * Q))]
  exact (joinRule_of_joinCost h).atMost (conditionCost_atMost hconfig hp hl hr hP hQ _ hints) hl hr hP hQ htime

end CostContext

end JoinPlanner
