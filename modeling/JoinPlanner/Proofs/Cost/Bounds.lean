import JoinPlanner.Proofs.Cost.Estimate
import JoinPlanner.Proofs.Cost.Exact

/-!
# Bounds of costs

In exact numbers, under a configuration without negative numbers and with facts that are probabilities, rows
and times are never negative, and no node takes less time than its inputs take together. This holds rule by
rule (`FilterRule.time_le`, `JoinRule.time_le`), and so of every estimate (`estimate_nonneg`).
-/

namespace JoinPlanner

open CostNumber (ofCount infinity lt)

structure CostConfig.Admissible (config : CostConfig Exact) : Prop where
  lookup : 0 ≤ config.indexLookupCost
  scan : 0 ≤ config.scanFactor
  penalty : 0 ≤ config.noRelationPenalty
  inequality : 0 ≤ config.inequalityJoinFraction
  spread : 0 < config.equiJoinSpreadDivisor

theorem CostConfig.standard_admissible : (CostConfig.standard Exact).Admissible where
  lookup := Exact.zero_le_ofCount _
  scan := Exact.zero_le_ofCount _
  penalty := Exact.zero_le_div (Exact.zero_le_ofCount _) (Exact.zero_le_ofCount _)
  inequality := Exact.zero_le_div (Exact.zero_le_ofCount _) (Exact.zero_le_ofCount _)
  spread := WithTop.coe_pos.2 (Nat.cast_pos.2 (by decide))

/-- Every known fact is a probability. -/
def Statistics.Probable (s : Statistics Exact) : Prop :=
  ∀ key p, s.fact? key = some p → 0 ≤ p ∧ p ≤ 1

structure Cost.Nonneg (c : Cost Exact) : Prop where
  rows : 0 ≤ c.rows
  time : 0 ≤ c.time

namespace CostContext

variable {ctx : CostContext Exact} {s : Session Exact} {c l r input : Cost Exact}

theorem twoLookups_nonneg (hconfig : ctx.config.Admissible) : 0 ≤ ctx.twoLookups :=
  Exact.zero_le_mul (Exact.zero_le_ofCount _) hconfig.lookup

namespace FilterRule

variable {kind : FilterKind Expr} {child : Plan Exact}

theorem rows_nonneg (h : ctx.FilterRule s child input kind c) (hinput : 0 ≤ input.rows) : 0 ≤ c.rows := by
  cases h with
  | probed _ =>
    rw [Exact.min_eq]
    exact le_min (Exact.zero_le_ofCount _) hinput
  | scanned _ _ =>
    exact Exact.zero_le_mul hinput (Exact.zero_le_div (Exact.zero_le_ofCount _) (Exact.zero_le_ofCount _))
  | ordered _ | sorted _ | guard _ | computed | aggregate _ => exact hinput

theorem time_le (h : ctx.FilterRule s child input kind c) (hconfig : ctx.config.Admissible)
    (hinput : 0 ≤ input.rows) : input.time ≤ c.time := by
  cases h with
  | probed _ | ordered _ => exact le_add_of_nonneg_right (twoLookups_nonneg hconfig)
  | scanned _ _ => exact le_add_of_nonneg_right (Exact.zero_le_mul hinput hconfig.scan)
  | sorted _ => exact le_add_of_nonneg_right (Exact.zero_le_mul hinput hconfig.lookup)
  | guard _ | computed | aggregate _ => exact le_rfl

end FilterRule

section Joins

variable {probability : Option Exact}

theorem relationRows_nonneg (hconfig : ctx.config.Admissible) (hp : ∀ p, probability = some p → 0 ≤ p)
    (op : Comparison) {left right : Exact} (hleft : 0 ≤ left) (hright : 0 ≤ right) :
    0 ≤ ctx.relationRows op probability left right := by
  unfold relationRows
  split
  case h_1 p => exact Exact.zero_le_mul (Exact.zero_le_mul (hp p rfl) hleft) hright
  case h_2 =>
    split
    · rw [Exact.min_eq]
      exact add_nonneg (le_min hleft hright) (Exact.zero_le_div (Exact.zero_le_abs _) hconfig.spread.le)
    · exact Exact.zero_le_mul (Exact.zero_le_mul hconfig.inequality hleft) hright

variable (hconfig : ctx.config.Admissible) (hl : 0 ≤ l.rows) (hr : 0 ≤ r.rows)
include hconfig hl hr

theorem conditionCost_rows_nonneg (hp : ∀ p, probability = some p → 0 ≤ p) (relation : Option SimpleRelation)
    (hints : JoinHints) : 0 ≤ (ctx.conditionCost relation hints probability l r).rows := by
  cases relation with
  | some relation => exact relationRows_nonneg hconfig hp _ hl hr
  | none => exact Exact.zero_le_mul hl hr

theorem conditionCost_time_le (relation : Option SimpleRelation) (hints : JoinHints) :
    l.time + r.time ≤ (ctx.conditionCost relation hints probability l r).time := by
  cases relation with
  | some relation =>
    have hscan : l.time + r.time ≤ l.time + r.time + l.rows * (ctx.config.scanFactor + ctx.twoLookups) :=
      le_add_of_nonneg_right (Exact.zero_le_mul hl (add_nonneg hconfig.scan (twoLookups_nonneg hconfig)))
    unfold conditionCost
    dsimp only
    split
    · exact hscan
    · exact hscan.trans (le_add_of_nonneg_right (Exact.zero_le_mul hr hconfig.lookup))
  | none =>
    exact le_add_of_nonneg_right (Exact.zero_le_mul (Exact.zero_le_mul (Exact.zero_le_mul hl hr) hconfig.scan)
      hconfig.penalty)

end Joins

namespace JoinRule

variable {kind : JoinKind} {cost : Cost Exact}

theorem rows_nonneg (h : JoinRule cost l r kind c) (hcost : 0 ≤ cost.rows) (hl : 0 ≤ l.rows)
    (hr : 0 ≤ r.rows) : 0 ≤ c.rows := by
  cases h with
  | cartesian => exact Exact.zero_le_mul hl hr
  | inner | outer _ => exact hcost
  | raised _ => exact hl

theorem time_le (h : JoinRule cost l r kind c) (hcost : l.time + r.time ≤ cost.time) :
    l.time + r.time ≤ c.time := by
  cases h with
  | cartesian => exact le_rfl
  | inner | outer _ | raised _ => exact hcost

end JoinRule

/-- Without a threshold nothing is given up. -/
theorem estimate_filter_infinity_eq_ok {kind : FilterKind Expr} {child : Expr} :
    ctx.estimate s infinity (.filter kind child) = .ok c ↔
      ∃ input, ctx.estimate s infinity child = .ok input ∧
        (ctx.filterCost kind (.ofExpr child) input).result s = .ok c := by
  simp only [estimate_filter_eq_ok, Exact.infinity_lt, Bool.false_eq_true, false_and, false_or, true_and]

theorem estimate_join_infinity_eq_ok {kind : JoinKind} {left right : Expr} {on : Option Expr}
    {hints : JoinHints} :
    ctx.estimate s infinity (.join kind left right on hints) = .ok c ↔
      ∃ l, ctx.estimate s infinity left = .ok l ∧ ∃ r, ctx.estimate s infinity right = .ok r ∧
        (ctx.joinCost kind (.ofExpr left) (.ofExpr right) on hints l r).result s = .ok c := by
  simp only [estimate_join_eq_ok, Exact.infinity_lt, Bool.false_eq_true, false_and, false_or, true_and]

section Estimates

variable (hconfig : ctx.config.Admissible)
include hconfig

theorem filterCost_bounds {kind : FilterKind Expr} {child : Plan Exact}
    (h : (ctx.filterCost kind child input).result s = .ok c) (hinput : 0 ≤ input.rows) :
    0 ≤ c.rows ∧ input.time ≤ c.time :=
  have hrule := filterRule_of_filterCost h
  ⟨hrule.rows_nonneg hinput, hrule.time_le hconfig hinput⟩

variable (hfacts : s.statistics.Probable)
include hfacts

theorem joinCost_bounds {kind : JoinKind} {left right : Plan Exact} {on : Option Expr} {hints : JoinHints}
    (h : (ctx.joinCost kind left right on hints l r).result s = .ok c) (hl : 0 ≤ l.rows) (hr : 0 ≤ r.rows) :
    0 ≤ c.rows ∧ l.time + r.time ≤ c.time := by
  have hrule := joinRule_of_joinCost h
  have hp (p : Exact) (h : hints.fact.bind s.statistics.fact? = some p) : 0 ≤ p := by
    obtain ⟨key, -, hkey⟩ := Option.bind_eq_some_iff.1 h
    exact (hfacts key p hkey).1
  exact ⟨hrule.rows_nonneg (conditionCost_rows_nonneg hconfig hl hr hp _ hints) hl hr,
    hrule.time_le (conditionCost_time_le hconfig hl hr _ hints)⟩

theorem estimate_nonneg {threshold : Exact} {e : Expr} (h : ctx.estimate s threshold e = .ok c) : c.Nonneg := by
  induction e using Plan.ofExpr.induct generalizing c with
  | case1 kind child ih =>
    obtain ⟨input, hinput, ⟨-, rfl⟩ | ⟨-, h⟩⟩ := estimate_filter_eq_ok.1 h
    · exact ⟨(ih hinput).rows, le_top⟩
    · obtain ⟨hrows, htime⟩ := filterCost_bounds hconfig h (ih hinput).rows
      exact ⟨hrows, (ih hinput).time.trans htime⟩
  | case2 kind left right on hints ihl ihr =>
    obtain ⟨l, hl, ⟨-, rfl⟩ | ⟨-, r, hr, ⟨-, rfl⟩ | ⟨-, h⟩⟩⟩ := estimate_join_eq_ok.1 h
    · exact ⟨(ihl hl).rows, le_top⟩
    · exact ⟨Exact.zero_le_mul (ihl hl).rows (ihr hr).rows, le_top⟩
    · obtain ⟨hrows, htime⟩ := joinCost_bounds hconfig hfacts h (ihl hl).rows (ihr hr).rows
      exact ⟨hrows, (add_nonneg (ihl hl).time (ihr hr).time).trans htime⟩
  | case3 e hfilter hjoin =>
    rw [estimate_leaf hfilter hjoin] at h
    obtain ⟨n, rfl⟩ := eq_of_leafCost h
    exact ⟨Exact.zero_le_ofCount n, Exact.zero_le_ofCount 0⟩

end Estimates

end CostContext

end JoinPlanner
