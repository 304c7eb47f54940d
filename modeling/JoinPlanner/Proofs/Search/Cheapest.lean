import JoinPlanner.Proofs.Search.Coverage
import JoinPlanner.Proofs.Search.Evaluate

/-!
# The cheapest candidate

If every candidate has a time, and the evaluation up to a threshold is sound, then the search ends with a plan
that takes no longer than any candidate that it evaluated, the plan of one of them; and it ends with the same
plan, cost and counters as a search that knows no thresholds (`Planner.solve_cheapest`).
-/

namespace JoinPlanner

open CostNumber (ofCount infinity le lt isNumber isFinite)
open PlanM (Yields Fails)

variable {κ σ : Type} [CostNumber κ]

/-- The search that evaluates every candidate without a threshold. -/
def Search.unpruned {m : Type → Type} (search : Search κ m) : Search κ m :=
  search.withEvaluate (fun seed order _ => search.evaluate seed order infinity) search.stop

variable {S : Type} {I : S → Prop} {s : S}

/-- In every state with `I` every candidate has a time, and the evaluation up to any threshold answers with it, or
with infinity if the time exceeds the threshold. -/
def Search.Times (I : S → Prop) (search : Search κ (PlanM S)) (time : UInt64 → List Nat → κ) : Prop :=
  ∀ seed order, order.Perm (List.range search.predicates) →
    Yields I (search.evaluate seed order infinity) (time seed order) ∧
    ∀ threshold, ∃ found, Yields I (search.evaluate seed order threshold) found ∧
      IsAnswer threshold (time seed order) found

namespace Search

variable [LawfulCostNumber κ] [RandomSource σ] {search : Search κ (PlanM S)} {time : UInt64 → List Nat → κ}

theorem lockstep_trial_covers (h : search.Times I time) (s : SearchState κ) :
    ((PlanM.lockstep κ I True).drawing σ).Rel (Beam.Covers search.predicates time s.beam)
      (fun s => Beam.Covers search.predicates time s.beam) (search.recorded.trial s) (search.unpruned.trial s) :=
  lockstep_trial fun seed order hperm => PlanM.lockstep_answers fun log hcovers => by
    obtain ⟨htime, hanswer⟩ := h seed order hperm
    obtain ⟨found, hfound, hanswer⟩ := hanswer ((search.trialThreshold s.beam).getD infinity)
    exact ⟨found, time seed order, hfound, htime, search.afterTrial_answer hcovers hanswer,
      search.covers_afterTrial hcovers hperm⟩

/-- The beam covers what was evaluated, unless the last cut has left nothing of it. -/
theorem invariant_covers (h : search.Times I time) :
    search.recorded.Invariant ((PlanM.lockstep κ I True).drawing σ) search.unpruned.evaluate search.unpruned.stop
      (fun _ _ s => Beam.Covers search.predicates time s.beam)
      (fun _ rank s log => Beam.Covers search.predicates time s.beam log ∨ rank = 0 ∧ s.beam = []) where
  enter _ hcovers := hcovers.resolve_right fun h => absurd h.1 (Nat.succ_ne_zero _)
  perturb _ {rank base s} hbase _ := by
    refine lockstep_perturb (fun _ log _ => .inr ⟨trivial, .of_isEmpty _, .of_isEmpty _⟩) fun seed order hperm =>
      PlanM.lockstep_answers fun log hcovers => ?_
    have hmem : base ∈ s.beam := List.mem_of_getElem? hbase
    have hperm' : order.Perm (List.range search.predicates) := hperm.trans (hcovers.order_perm hmem)
    obtain ⟨htime, hanswer⟩ := h seed order hperm'
    obtain ⟨found, hfound, hanswer⟩ := hanswer base.cost
    exact ⟨found, time seed order, hfound, htime, SearchState.afterPerturbation_answer hcovers hmem hanswer,
      SearchState.covers_afterPerturbation hcovers hmem hperm'⟩
  cut {_ rank s log} hcovers := by
    by_cases hzero : max rank search.config.minBeam = 0
    · refine .inr ⟨by omega, ?_⟩
      show s.beam.take (max rank search.config.minBeam) = []
      rw [hzero, List.take_zero]
    · exact .inl (hcovers.take (Nat.pos_of_ne_zero hzero))

/-- The search, the search that records and the one without thresholds come to one end, unless the search fails. -/
theorem exists_run (h : search.Times I time) (source : σ) :
    (∃ r log, Yields I ((search.recorded.run.run source).run []) (r, log) ∧
      Yields I (search.run.run source) r ∧ Yields I (search.unpruned.run.run source) r ∧
      (Beam.Covers search.predicates time r.1.beam log ∨ r.1.beam = [])) ∨
    Fails I (search.run.run source) := by
  have hrun := search.run_recorded source []
  obtain ⟨r, log, hrecorded, hunpruned, _, _, hcovers, -⟩ | ⟨-, hrecorded, -⟩ :=
    (invariant_covers h).run (· = []) (fun log hlog => by subst hlog; exact .nil)
      (lockstep_trial_covers h) (fun _ _ => .inl) source [] rfl
  · refine .inl ⟨r, log, hrecorded, ?_, hunpruned, hcovers.imp_right And.right⟩
    rw [← hrun]
    exact hrecorded.map Prod.fst
  · right
    rw [← hrun, map_eq_pure_bind]
    exact hrecorded.bind _

end Search

namespace Problem

/-- Every candidate is built and priced, at one time in all states with `I`, and the evaluation up to any threshold
answers with that time, or with infinity if the time exceeds the threshold. -/
structure Prices (problem : Problem) (model : CostModel κ S) (I : S → Prop) (time : UInt64 → List Nat → κ) :
    Prop where
  built (seed : UInt64) {order : List Nat} : order.Perm (List.range problem.predicates.length) →
    ∃ tree plan cost, problem.build order (Generator.ofSeed seed) = .ok tree ∧
      Yields I (model infinity (.ofExpr tree)) (plan, cost) ∧ cost.time = time seed order
  answers (seed : UInt64) {order : List Nat} (threshold : κ) :
    order.Perm (List.range problem.predicates.length) →
      ∃ found, Yields I (problem.evaluate model seed order threshold) found ∧
        IsAnswer threshold (time seed order) found

/-- In sessions that agree, candidates have the times that they have in one of them. -/
theorem Prices.of_results {problem : Problem} {ctx : CostContext κ} {s : Session κ} {time : UInt64 → List Nat → κ}
    (htime : ∀ seed order, order.Perm (List.range problem.predicates.length) →
      (Planner.evaluate problem ctx seed order infinity).result s = .ok (time seed order))
    (hanswer : ∀ seed order, order.Perm (List.range problem.predicates.length) → ∀ threshold,
      ∃ found, (Planner.evaluate problem ctx seed order threshold).result s = .ok found ∧
        IsAnswer threshold (time seed order) found) : problem.Prices ctx.priced (ctx.Agree s) time where
  built seed {order} hperm := by
    obtain ⟨tree, cost, hbuild, hcost, htime⟩ := Planner.evaluate_eq_ok.1 (htime seed order hperm)
    exact ⟨tree, _, cost, hbuild, Planner.yields_priced (Prod.ext rfl hcost), htime⟩
  answers seed {order} threshold hperm := by
    obtain ⟨found, hfound, hanswer⟩ := hanswer seed order hperm threshold
    exact ⟨found, (Planner.repeatable_evaluate ..).yields hfound, hanswer⟩

variable [RandomSource σ] (problem : Problem) (model : CostModel κ S) (config : SearchConfig)

/-- The candidates that a search from a random source evaluates, with the answers. -/
def evaluated (source : σ) : PlanM S (List (Candidate κ)) :=
  Prod.snd <$> ((problem.search model config).recorded.run.run source).run []

/-- `solve` without thresholds. -/
def solveUnpruned (source : σ) : PlanM S (PlannedQuery κ) :=
  (problem.search model config).unpruned.run.run source >>= fun r => problem.rebuild model r.1

variable [LawfulCostNumber κ] {problem model config} {source : σ} {time : UInt64 → List Nat → κ}
  {result : PlannedQuery κ}

omit [LawfulCostNumber κ] in
theorem Prices.times (h : problem.Prices model I time) : (problem.search model config).Times I time := by
  intro seed order hperm
  refine ⟨?_, fun threshold => h.answers seed threshold hperm⟩
  obtain ⟨tree, plan, cost, hbuild, hpriced, htime⟩ := h.built seed hperm
  show Yields I (problem.evaluate model seed order infinity) _
  rw [evaluate_of_build hbuild, ← htime]
  exact hpriced.map _

/-- The plan of a search is that of a candidate that was evaluated; its time is finite, and no other finite time is
below it. -/
theorem solve_least (h : problem.Prices model I time) (hs : I s)
    (hsolve : (problem.solve model config source).result s = .ok result) :
    ∃ log, (problem.evaluated model config source).result s = .ok log ∧
      (∃ c ∈ log, ∃ tree, problem.build c.order (Generator.ofSeed c.seed) = .ok tree ∧
        Yields I (model infinity (.ofExpr tree)) (result.plan, result.cost) ∧
        result.cost.time = time c.seed c.order) ∧
      isFinite result.cost.time = true ∧
      (∀ c ∈ log, c.order.Perm (List.range problem.predicates.length) ∧
        (isFinite (time c.seed c.order) = true → le result.cost.time (time c.seed c.order) = true)) ∧
      (problem.solveUnpruned model config source).result s = .ok result := by
  change ((problem.search model config).run.run source >>= fun r => problem.rebuild model r.1).result s = _ at hsolve
  obtain ⟨r, log, hrecorded, hrun, hunpruned, hcovers⟩ | hfails := Search.exists_run h.times source
  · cases hbest : r.1.beam.head? with
    | none =>
      obtain ⟨t, -, hend⟩ := hrun.result_bind hs fun r => problem.rebuild model r.1
      rw [hend, rebuild_nil (List.head?_eq_none_iff.1 hbest)] at hsolve
      cases hsolve
    | some best =>
      have hmem : best ∈ r.1.beam := List.mem_of_head? hbest
      have hcovers := hcovers.resolve_right (List.ne_nil_of_mem hmem)
      obtain ⟨c, hc, hseed, horder⟩ := hcovers.recorded best hmem
      obtain ⟨tree, plan, cost, hbuild, hpriced, htime⟩ := h.built best.seed (hcovers.order_perm hmem)
      have hrebuild := yields_rebuild hbest hbuild hpriced
      cases ((hrun.bind hrebuild).result hs).symm.trans hsolve
      have hcost : cost.time = best.cost := htime.trans (hcovers.cost best hmem).symm
      refine ⟨log, (hrecorded.map Prod.snd).result hs, ⟨c, hc, tree, ?_, hpriced, ?_⟩, ?_, fun c hc => ?_,
        (hunpruned.bind hrebuild).result hs⟩
      · rw [hseed, horder, hbuild]
      · rw [hseed, horder, htime]
      · rw [hcost]
        exact hcovers.finite best hmem
      · refine ⟨hcovers.perm c hc, fun hfinite => ?_⟩
        obtain ⟨b, hb, hle⟩ := hcovers.least c hc hfinite
        rw [hcost]
        exact LawfulCostNumber.le_trans (hcovers.head_le hbest hb) hle
  · obtain ⟨e, he⟩ := (hfails.bind fun r => problem.rebuild model r.1) s hs
    rw [he] at hsolve
    cases hsolve

/-- Under any cost model that prices every candidate, and whose thresholds are sound, the plan of a search is that of
a candidate that was evaluated, takes the least time of all of them but those of −∞, and is found just so, counters
included, without thresholds. -/
theorem solve_cheapest (h : problem.Prices model I time) (hs : I s)
    (hsolve : (problem.solve model config source).result s = .ok result) :
    ∃ log, (problem.evaluated model config source).result s = .ok log ∧
      (∃ c ∈ log, ∃ tree, problem.build c.order (Generator.ofSeed c.seed) = .ok tree ∧
        Yields I (model infinity (.ofExpr tree)) (result.plan, result.cost) ∧
        result.cost.time = time c.seed c.order) ∧
      isFinite result.cost.time = true ∧
      (∀ c ∈ log, isFinite (time c.seed c.order) = true ∨ time c.seed c.order = infinity →
        le result.cost.time (time c.seed c.order) = true) ∧
      (problem.solveUnpruned model config source).result s = .ok result := by
  obtain ⟨log, hlog, hfound, hfinite, hleast, hunpruned⟩ := solve_least h hs hsolve
  refine ⟨log, hlog, hfound, hfinite, fun c hc htime => ?_, hunpruned⟩
  obtain htime | htime := htime
  · exact (hleast c hc).2 htime
  · rw [htime]
    exact LawfulCostNumber.le_infinity (LawfulCostNumber.isNumber_of_isFinite hfinite)

open Planner (equiJoin equiJoinTree twoTrials)

/-- Two trials take 19 and then 16, and the plan is that of the second. -/
theorem solve_cheapest_equiJoin : ∃ result log,
    (equiJoin.solve CostContext.twoTables.priced (twoTrials 8).search (Generator.ofSeed 4)).result {} = .ok result ∧
    (equiJoin.evaluated CostContext.twoTables.priced (twoTrials 8).search (Generator.ofSeed 4)).result {} = .ok log ∧
    log.map (·.cost) = [((16 : ℚ) : Exact), ((19 : ℚ) : Exact)] ∧ result.cost.time = ((16 : ℚ) : Exact) ∧
    (equiJoin.solveUnpruned CostContext.twoTables.priced (twoTrials 8).search (Generator.ofSeed 4)).result {} =
      .ok result := by
  have htime : ((equiJoin.solve CostContext.twoTables.priced (twoTrials 8).search (Generator.ofSeed 4)).result
      {}).toOption.map (·.cost.time) = some ((16 : ℚ) : Exact) := by
    decide +kernel
  have hcosts : ((equiJoin.evaluated CostContext.twoTables.priced (twoTrials 8).search (Generator.ofSeed 4)).result
      {}).toOption.map (List.map (·.cost)) = some [((16 : ℚ) : Exact), ((19 : ℚ) : Exact)] := by
    decide +kernel
  have hprices : equiJoin.Prices CostContext.twoTables.priced (CostContext.twoTables.Agree {}) fun seed order =>
      (((Planner.evaluate equiJoin CostContext.twoTables seed order infinity).result {}).toOption).getD infinity := by
    refine .of_results (fun seed order hperm => ?_) fun seed order hperm threshold => ?_
    · obtain ⟨time, hevaluate⟩ := Planner.evaluate_equiJoin seed hperm
      rw [hevaluate]
      rfl
    · obtain ⟨time, hevaluate⟩ := Planner.evaluate_equiJoin seed hperm
      rw [hevaluate]
      exact Planner.exists_answer CostConfig.standard_admissible Planner.probable_empty hevaluate threshold
  cases hsolve : (equiJoin.solve CostContext.twoTables.priced (twoTrials 8).search (Generator.ofSeed 4)).result {} with
  | error e => rw [hsolve] at htime; cases htime
  | ok result =>
    rw [hsolve] at htime
    obtain ⟨log, hlog, -, -, -, hunpruned⟩ := solve_cheapest hprices (.refl {}) hsolve
    rw [hlog] at hcosts
    exact ⟨result, log, rfl, hlog, Option.some.inj hcosts, Option.some.inj htime, hunpruned⟩

/-- Exact numbers with −∞ below them; what is computed from −∞ is −∞. -/
abbrev SignedExact := WithBot Exact

instance : CostNumber SignedExact where
  add := WithBot.map₂ (· + ·)
  sub := WithBot.map₂ (· - ·)
  mul := WithBot.map₂ (· * ·)
  div := WithBot.map₂ (· / ·)
  ofCount n := (ofCount n : Exact)
  infinity := (infinity : Exact)
  isFinite a := decide (a ≠ ⊥ ∧ a ≠ ⊤)
  le a b := decide (a ≤ b)
  abs := WithBot.map CostNumber.abs

instance : LawfulCostNumber SignedExact where
  isNumber_of_le _ := ⟨decide_eq_true le_rfl, decide_eq_true le_rfl⟩
  le_trans h h' := decide_eq_true ((of_decide_eq_true h).trans (of_decide_eq_true h'))
  le_total {a b} _ _ := (le_total a b).imp decide_eq_true decide_eq_true
  le_infinity _ := decide_eq_true le_top
  isNumber_ofCount _ := decide_eq_true le_rfl
  isNumber_of_isFinite _ := decide_eq_true le_rfl
  isFinite_infinity := decide_eq_false fun h => h.2 rfl
  isFinite_or_of_zero_le {a} hle := by
    by_cases htop : a = ⊤
    · exact .inr htop
    · have hbot : a ≠ ⊥ := by
        rintro rfl
        exact absurd (of_decide_eq_true hle) (not_le_of_gt (WithBot.bot_lt_coe _))
      exact .inl (decide_eq_true ⟨hbot, htop⟩)

/-- A model that prices a join with the table `a` on the left at −∞, and everything else at 1. -/
def belowAll : CostModel SignedExact Unit := fun _ p =>
  let time : SignedExact :=
    match p with
    | .join _ left _ _ _ _ => if left.relations.contains ⟨none, "a"⟩ then ⊥ else (1 : Exact)
    | _ => (1 : Exact)
  return (p, ⟨(1 : Exact), time⟩)

/-- Both orders are tried, and each has its time up to any threshold, but the plan is that of time 1. -/
theorem solve_above_least : ∃ result log,
    (equiJoin.solve belowAll (twoTrials 8).search (Generator.ofSeed 4)).result () = .ok result ∧
    (equiJoin.evaluated belowAll (twoTrials 8).search (Generator.ofSeed 4)).result () = .ok log ∧
    (∀ seed order, order.Perm (List.range equiJoin.predicates.length) → ∃ time, isNumber time = true ∧
      ∀ threshold, (equiJoin.evaluate belowAll seed order threshold).result () = .ok time) ∧
    ∃ c ∈ log, lt c.cost result.cost.time = true := by
  have htime : ((equiJoin.solve belowAll (twoTrials 8).search (Generator.ofSeed 4)).result ()).toOption.map
      (·.cost.time) = some ((1 : Exact) : SignedExact) := by
    decide +kernel
  have hcosts : ((equiJoin.evaluated belowAll (twoTrials 8).search (Generator.ofSeed 4)).result ()).toOption.map
      (List.map (·.cost)) = some [((1 : Exact) : SignedExact), ⊥] := by
    decide +kernel
  have hanswer (seed : UInt64) (order : List Nat) (hperm : order.Perm (List.range equiJoin.predicates.length)) :
      ∃ time, isNumber time = true ∧
        ∀ threshold, (equiJoin.evaluate belowAll seed order threshold).result () = .ok time := by
    obtain ⟨swapped, hbuild⟩ := Planner.build_equiJoin hperm (Generator.ofSeed seed)
    refine ⟨if swapped then (1 : Exact) else ⊥, decide_eq_true le_rfl, fun threshold => ?_⟩
    rw [evaluate_of_build hbuild]
    cases swapped <;> rfl
  cases hsolve : (equiJoin.solve belowAll (twoTrials 8).search (Generator.ofSeed 4)).result () with
  | error e => rw [hsolve] at htime; cases htime
  | ok result =>
    cases hlog : (equiJoin.evaluated belowAll (twoTrials 8).search (Generator.ofSeed 4)).result () with
    | error e => rw [hlog] at hcosts; cases hcosts
    | ok log =>
      rw [hsolve] at htime
      rw [hlog] at hcosts
      have hbelow : (⊥ : SignedExact) ∈ log.map (·.cost) := by
        rw [Option.some.inj hcosts]
        exact .tail _ (.head _)
      obtain ⟨c, hc, hcost⟩ := List.mem_map.1 hbelow
      have htime : result.cost.time = ((1 : Exact) : SignedExact) := Option.some.inj htime
      refine ⟨result, log, rfl, rfl, hanswer, c, hc, ?_⟩
      rw [hcost, htime]
      decide +kernel

end Problem

namespace Planner

variable [RandomSource σ] [LawfulCostNumber κ] {planner : Planner κ} {problem : Problem} {ctx : CostContext κ}
  {s : Session κ}

/-- The planner's own pricing knows no time of −∞, so that its plan takes the least time of all candidates that were
evaluated. -/
theorem solve_le_evaluated (source : σ) (time : UInt64 → List Nat → κ) {result : PlannedQuery κ}
    (htime : ∀ seed order, order.Perm (List.range problem.predicates.length) →
      (evaluate problem ctx seed order infinity).result s = .ok (time seed order) ∧
      isNumber (time seed order) = true)
    (hanswer : ∀ seed order, order.Perm (List.range problem.predicates.length) → ∀ threshold,
      ∃ found, (evaluate problem ctx seed order threshold).result s = .ok found ∧
        IsAnswer threshold (time seed order) found)
    (hsolve : (planner.solve problem ctx source).result s = .ok result) :
    ∃ log, (problem.evaluated ctx.priced planner.search source).result s = .ok log ∧
      (∃ c ∈ log, ∃ tree, problem.build c.order (Generator.ofSeed c.seed) = .ok tree ∧
        ((ctx.price infinity (.ofExpr tree)).run s).1 = (result.plan, .ok result.cost) ∧
        result.cost.time = time c.seed c.order) ∧
      ∀ c ∈ log, le result.cost.time (time c.seed c.order) = true := by
  have hprices : problem.Prices ctx.priced (ctx.Agree s) time :=
    .of_results (fun seed order hperm => (htime seed order hperm).1) hanswer
  obtain ⟨log, hlog, ⟨c, hc, tree, hbuild, hpriced, hcost⟩, hfinite, hleast, -⟩ :=
    Problem.solve_least hprices (.refl s) hsolve
  have hprice := CostContext.result_priced_eq_ok.1 (hpriced.result (.refl s))
  refine ⟨log, hlog, ⟨c, hc, tree, hbuild, hprice, hcost⟩, fun c hc => ?_⟩
  obtain ⟨hperm, hle⟩ := hleast c hc
  obtain ⟨-, hnumber⟩ := htime c.seed c.order hperm
  obtain hctime | hctime := LawfulCostNumber.isFinite_or_of_zero_le
    (zero_le_of_answers hnumber (hanswer c.seed c.order hperm))
  · exact hle hctime
  · rw [hctime]
    exact LawfulCostNumber.le_infinity (LawfulCostNumber.isNumber_of_isFinite hfinite)

end Planner

end JoinPlanner
