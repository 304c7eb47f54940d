import JoinPlanner.Planner
import JoinPlanner.Proofs.Candidate.Run
import JoinPlanner.Proofs.Cost.Lawful
import JoinPlanner.Proofs.Cost.Pruning
import JoinPlanner.Proofs.Search.Recorded
import Mathlib.Data.List.Permutation

/-!
# The planner's evaluation

The planner evaluates a candidate by building and pricing its tree. This is repeatable (`Planner.repeatable_evaluate`),
and comes to a time exactly if the tree is built and has that estimate (`Planner.evaluate_eq_ok`). No time is
negative if thresholds are sound (`Planner.zero_le_of_answers`). The search's last step builds the best candidate
again (`Planner.rebuild`).
-/

namespace JoinPlanner

open CostNumber (ofCount infinity le lt isNumber isFinite)

variable {κ σ : Type} [CostNumber κ]

namespace CostContext

variable {ctx : CostContext κ} {s : Session κ}

theorem run_priced (threshold : κ) (p : Plan κ) : (ctx.priced threshold p).run.run s =
    (((ctx.price threshold p).run s).1.2.map (((ctx.price threshold p).run s).1.1, ·),
      ((ctx.price threshold p).run s).2) := by
  change (do return (((ctx.price threshold p).run s).1.1, ← ((ctx.price threshold p).run s).1.2) :
    SessionM κ (Plan κ × Cost κ)).run.run ((ctx.price threshold p).run s).2 = _
  rcases (ctx.price threshold p).run s with ⟨⟨q, e | c⟩, s'⟩ <;> rfl

theorem result_priced_eq_ok {threshold : κ} {p q : Plan κ} {c : Cost κ} :
    (ctx.priced threshold p).result s = .ok (q, c) ↔ ((ctx.price threshold p).run s).1 = (q, .ok c) := by
  rw [PlanM.result, run_priced]
  rcases ((ctx.price threshold p).run s).1 with ⟨q', e | c'⟩ <;> simp [Except.map]

theorem Repeatable.priced (threshold : κ) (p : Plan κ) : ctx.Repeatable (ctx.priced threshold p).run where
  same {s s'} h := by
    rw [run_priced, run_priced, (Repeatable.price threshold p).same h]
  agree s := by
    rw [run_priced]
    exact (Repeatable.price threshold p).agree s
  faithful {s} h := by
    rw [run_priced]
    exact (Repeatable.price threshold p).faithful h

/-- Below zero every tree that is no leaf is given up, so no time that is found is negative. -/
theorem zero_le_time_of_lt_zero [LawfulCostNumber κ] {threshold : κ} {e : Expr} {c : Cost κ}
    (hthreshold : lt threshold (ofCount 0) = true) (h : ctx.estimate s threshold e = .ok c) :
    le (ofCount 0) c.time = true := by
  have hinfinity : le (ofCount 0 : κ) infinity = true :=
    LawfulCostNumber.le_infinity (LawfulCostNumber.isNumber_ofCount 0)
  induction e using Plan.ofExpr.induct generalizing c with
  | case1 kind child ih =>
    obtain ⟨input, hinput, ⟨-, rfl⟩ | ⟨hnot, -⟩⟩ := estimate_filter_eq_ok.1 h
    · exact hinfinity
    · rw [LawfulCostNumber.lt_of_lt_of_le hthreshold (ih hinput)] at hnot
      cases hnot
  | case2 kind left right on hints ihl ihr =>
    obtain ⟨l, hl, ⟨-, rfl⟩ | ⟨hnot, -⟩⟩ := estimate_join_eq_ok.1 h
    · exact hinfinity
    · rw [LawfulCostNumber.lt_of_lt_of_le hthreshold (ihl hl)] at hnot
      cases hnot
  | case3 e hfilter hjoin =>
    rw [estimate_leaf hfilter hjoin] at h
    obtain ⟨n, rfl⟩ := eq_of_leafCost h
    exact LawfulCostNumber.isNumber_ofCount 0

end CostContext

namespace Problem

variable {S : Type} {I : S → Prop} {problem : Problem} {model : CostModel κ S} {seed : UInt64} {order : List Nat}
  {tree : Expr} {final : SearchState κ} {best : Candidate κ}

omit [CostNumber κ] in
theorem evaluate_of_build (hbuild : problem.build order (Generator.ofSeed seed) = .ok tree) (threshold : κ) :
    problem.evaluate model seed order threshold = (·.2.time) <$> model threshold (.ofExpr tree) := by
  rw [evaluate, hbuild, map_eq_pure_bind]
  rfl

theorem rebuild_nil (h : final.beam = []) : problem.rebuild model final = throw (.inconsistent .noFinitePlan) := by
  rw [rebuild, h]
  rfl

/-- The best candidate gives the plan and the cost of its tree. -/
theorem yields_rebuild {plan : Plan κ} {cost : Cost κ} (hbest : final.beam.head? = some best)
    (hbuild : problem.build best.order (Generator.ofSeed best.seed) = .ok tree)
    (hpriced : PlanM.Yields I (model infinity (.ofExpr tree)) (plan, cost)) :
    PlanM.Yields I (problem.rebuild model final) { plan, cost, search := final.stats } := by
  rw [rebuild, hbest]
  dsimp only
  rw [hbuild]
  exact hpriced.bind (.pure _)

end Problem

namespace Planner

open CostContext (Repeatable)

variable {problem : Problem} {ctx : CostContext κ} {s : Session κ} {seed : UInt64} {order : List Nat}
  {threshold time : κ}

theorem repeatable_evaluate (problem : Problem) (ctx : CostContext κ) (seed : UInt64) (order : List Nat)
    (threshold : κ) : ctx.Repeatable (evaluate problem ctx seed order threshold).run :=
  Repeatable.bind_run (.pure (problem.build order (Generator.ofSeed seed))) fun _ =>
    Repeatable.bind_run (.priced _ _) fun _ => .pure _

theorem evaluate_eq_ok : (evaluate problem ctx seed order threshold).result s = .ok time ↔
    ∃ tree c, problem.build order (Generator.ofSeed seed) = .ok tree ∧ ctx.estimate s threshold tree = .ok c ∧
      c.time = time := by
  rw [evaluate]
  cases hbuild : problem.build order (Generator.ofSeed seed) with
  | error e =>
    rw [Problem.evaluate, hbuild]
    constructor
    · intro h
      cases h
    · rintro ⟨_, _, h, -⟩
      cases h
  | ok tree =>
    have hresult : ((·.2.time) <$> ctx.priced threshold (.ofExpr tree) : SessionM κ κ).result s =
        (ctx.estimate s threshold tree).map Cost.time := by
      rw [PlanM.result, ExceptT.run_map, StateT.run_map, CostContext.run_priced, CostContext.estimate]
      rcases ((ctx.price threshold (.ofExpr tree)).run s).1 with ⟨q, e | c⟩ <;> rfl
    rw [Problem.evaluate_of_build hbuild, hresult]
    cases hestimate : ctx.estimate s threshold tree <;> simp [Except.map, hestimate]

/-- If thresholds are sound, no time is negative: below zero only what is no less than zero is found. -/
theorem zero_le_of_answers [LawfulCostNumber κ] (hnumber : isNumber time = true)
    (h : ∀ threshold, ∃ found, (evaluate problem ctx seed order threshold).result s = .ok found ∧
      IsAnswer threshold time found) : le (ofCount 0) time = true := by
  by_contra hnot
  have hle : le time (ofCount 0) = true :=
    (LawfulCostNumber.le_total hnumber (LawfulCostNumber.isNumber_ofCount 0)).resolve_right hnot
  have hlt : lt time (ofCount 0) = true := by
    rw [lt, hle, Bool.eq_false_iff.2 hnot]
    rfl
  obtain ⟨found, hfound, rfl | ⟨-, hself⟩⟩ := h time
  · obtain ⟨tree, c, -, hc, rfl⟩ := evaluate_eq_ok.1 hfound
    exact hnot (CostContext.zero_le_time_of_lt_zero hlt hc)
  · rw [lt, Bool.and_not_self] at hself
    cases hself

variable (planner : Planner κ) (problem ctx)

/-- The search that `solve` runs. -/
def searchFor : Search κ (SessionM κ) := problem.search ctx.priced planner.search

theorem solve_eq [RandomSource σ] (source : σ) : planner.solve problem ctx source =
    (planner.searchFor problem ctx).run.run source >>= fun r => problem.rebuild ctx.priced r.1 := rfl

variable {problem ctx} {final : SearchState κ}

theorem yields_priced {tree : Expr} {plan : Plan κ} {cost : Cost κ}
    (h : ((ctx.price threshold (.ofExpr tree)).run s).1 = (plan, .ok cost)) :
    PlanM.Yields (ctx.Agree s) (ctx.priced threshold (.ofExpr tree)) (plan, cost) :=
  (Repeatable.priced threshold (.ofExpr tree)).yields (CostContext.result_priced_eq_ok.2 h)

theorem repeatable_rebuild (final : SearchState κ) : ctx.Repeatable (problem.rebuild ctx.priced final).run := by
  rw [Problem.rebuild]
  cases final.beam.head? with
  | none => exact .pure _
  | some best =>
    refine Repeatable.bind_run (.pure (problem.build best.order (Generator.ofSeed best.seed))) fun tree => ?_
    exact Repeatable.bind_run (.priced _ _) fun _ => .pure _

/-- What `rebuild` gives is a tree that was built, priced. -/
theorem exists_build_of_rebuild {result : PlannedQuery κ}
    (h : (problem.rebuild ctx.priced final).result s = .ok result) :
    ∃ seed order tree, problem.build order (Generator.ofSeed seed) = .ok tree ∧
      ((ctx.price infinity (.ofExpr tree)).run s).1 = (result.plan, .ok result.cost) := by
  rw [Problem.rebuild] at h
  cases hbest : final.beam.head? with
  | none => rw [hbest] at h; cases h
  | some best =>
    rw [hbest] at h
    dsimp only at h
    obtain ⟨tree, hbuild, h⟩ := Repeatable.of_result_bind_eq_ok h
      (.pure (problem.build best.order (Generator.ofSeed best.seed))) fun tree =>
        Repeatable.bind_run (.priced _ _) fun _ => .pure _
    obtain ⟨⟨plan, cost⟩, hpriced, hresult⟩ := Repeatable.of_result_bind_eq_ok h (.priced _ _) fun _ => .pure _
    cases hresult
    exact ⟨best.seed, best.order, tree, hbuild, CostContext.result_priced_eq_ok.1 hpriced⟩

theorem repeatable_search [RandomSource σ] (source : σ) :
    ctx.Repeatable ((planner.searchFor problem ctx).run.run source).run :=
  CostContext.repeatable_run (.pure _) (fun _ _ _ => repeatable_evaluate ..) source

theorem repeatable_solve [RandomSource σ] (problem : Problem) (ctx : CostContext κ) (source : σ) :
    ctx.Repeatable (planner.solve problem ctx source).run := by
  rw [solve_eq]
  exact Repeatable.bind_run (planner.repeatable_search source) fun r => repeatable_rebuild r.1

variable {planner} in
theorem exists_build_of_solve [RandomSource σ] {source : σ} {result : PlannedQuery κ}
    (h : (planner.solve problem ctx source).result s = .ok result) :
    ∃ seed order tree, problem.build order (Generator.ofSeed seed) = .ok tree ∧
      ((ctx.price infinity (.ofExpr tree)).run s).1 = (result.plan, .ok result.cost) := by
  rw [solve_eq] at h
  obtain ⟨final, -, h⟩ :=
    Repeatable.of_result_bind_eq_ok h (planner.repeatable_search source) fun r => repeatable_rebuild r.1
  exact exists_build_of_rebuild h

/-! ### In exact numbers -/

/-- Without negative costs and facts that are no probabilities, thresholds are sound. -/
theorem exists_answer {ctx : CostContext Exact} {s : Session Exact} {time : Exact}
    (hconfig : ctx.config.Admissible) (hfacts : s.statistics.Probable)
    (h : (evaluate problem ctx seed order infinity).result s = .ok time) (threshold : Exact) :
    ∃ found, (evaluate problem ctx seed order threshold).result s = .ok found ∧ IsAnswer threshold time found := by
  obtain ⟨tree, c, hbuild, hc, rfl⟩ := evaluate_eq_ok.1 h
  obtain ⟨d, hd, hupTo⟩ := CostContext.exists_estimate_upTo hconfig hfacts hc threshold
  refine ⟨d.time, evaluate_eq_ok.2 ⟨tree, d, hbuild, hd, rfl⟩, ?_⟩
  exact hupTo.imp (congrArg Cost.time) (And.imp_right Exact.lt_iff.2)

theorem probable_empty : ({} : Session Exact).statistics.Probable := fun _ _ h => nomatch h

/-- `SELECT * FROM t AS a JOIN u AS b ON a.x = b.y`. -/
def equiJoin : Problem where
  relations := [⟨⟨none, "a"⟩, ⟨none, "t"⟩⟩, ⟨⟨none, "b"⟩, ⟨none, "u"⟩⟩]
  predicates := [.ofCondition (.equals (.column ⟨⟨none, "a"⟩, "x"⟩) (.column ⟨⟨none, "b"⟩, "y"⟩)) ∅]

/-- Its join, with either table on the left. -/
def equiJoinTree (swapped : Bool) : Expr :=
  let a : Expr := .relation ⟨none, "a"⟩ ⟨none, "t"⟩
  let b : Expr := .relation ⟨none, "b"⟩ ⟨none, "u"⟩
  let on : Expr := .equals (.column ⟨⟨none, "a"⟩, "x"⟩) (.column ⟨⟨none, "b"⟩, "y"⟩)
  if swapped then .join .inner b a (some on) {} else .join .inner a b (some on) {}

open Predicate in
theorem build_equiJoin {order : List Nat} (h : order.Perm [0]) [RandomSource σ] (source : σ) :
    ∃ swapped, equiJoin.build order source = .ok (equiJoinTree swapped) := by
  obtain rfl := List.perm_singleton.1 h
  set p : Predicate := .ofCondition (.equals (.column ⟨⟨none, "a"⟩, "x"⟩) (.column ⟨⟨none, "b"⟩, "y"⟩)) ∅
  set a : Fragment := .ofRelation ⟨⟨none, "a"⟩, ⟨none, "t"⟩⟩
  set b : Fragment := .ofRelation ⟨⟨none, "b"⟩, ⟨none, "u"⟩⟩
  have hselect : equiJoin.select [0] = .ok [p] := rfl
  have hready : p.isReady [a, b] [] = true := by decide +kernel
  have htouched : p.applyTo (σ := σ) [a, b] = p.fuse [a, b] >>= fun f => return [] ++ [f] := by
    have hall : [a, b].partition (·.isTouchedBy p) = ([a, b], []) := by
      have ha : a.isTouchedBy p = true := by decide +kernel
      have hb : b.isTouchedBy p = true := by decide +kernel
      simp [List.partition_eq_filter_filter, ha, hb]
    rw [applyTo, hall]
  have hchoose : ((chooseReady [a, b] none (splits [p])).run source).1 = some (p, []) := by
    show ((chooseReady [a, b] none [(p, [])]).run source).1 = _
    rw [chooseReady_cons_run hready]
    split <;> rfl
  have hfuse (s : σ) : ∃ swapped f s', (p.fuse [a, b]).run s = .ok (f, s') ∧ f.tree = equiJoinTree swapped := by
    rw [fuse_of_many rfl, BuildM.run_draw_bind]
    obtain h | h := List.perm_pair.1 (Draw.shuffle_perm [a, b] s)
    · rw [h]
      exact ⟨false, _, _, rfl, rfl⟩
    · rw [h]
      exact ⟨true, _, _, rfl, rfl⟩
  obtain ⟨swapped, f, s', hf, htree⟩ := hfuse ((chooseReady [a, b] none (splits [p])).run source).2
  refine ⟨swapped, ?_⟩
  rw [Problem.build_of_select hselect]
  show Except.map _ ((applyPending 1 [p] [a, b]).run source) = _
  rw [applyPending, BuildM.run_draw_bind, hchoose]
  dsimp only
  rw [htouched, bind_assoc, BuildM.run_bind_of_eq_ok hf, ← htree]
  rfl

/-- The join takes 19 with the three rows on the left, and 16 with the two. -/
theorem evaluate_equiJoin (seed : UInt64) {order : List Nat} (h : order.Perm [0]) :
    ∃ time, (evaluate equiJoin CostContext.twoTables seed order infinity).result {} = .ok time := by
  obtain ⟨swapped, hbuild⟩ := build_equiJoin h (Generator.ofSeed seed)
  have hestimate : ((CostContext.twoTables.estimate {} infinity (equiJoinTree swapped)).toOption).map (·.time) =
      some ((if swapped then 16 else 19 : ℚ) : Exact) := by
    cases swapped <;> decide +kernel
  cases hc : CostContext.twoTables.estimate {} infinity (equiJoinTree swapped) with
  | error e => rw [hc] at hestimate; cases hestimate
  | ok c => exact ⟨c.time, evaluate_eq_ok.2 ⟨_, c, hbuild, hc, rfl⟩⟩

/-- A planner of the two tables that makes two trials, and no tries in the refinement. -/
def twoTrials (minBeam : Nat) : Planner Exact where
  catalog := CostContext.twoTables.catalog
  cost := CostContext.twoTables.config
  search := { seedTrials := 2, minBeam, refineTriesBest := 0, refineTriesMin := 0, maxRefinementSteps := 4 }

end Planner

end JoinPlanner
