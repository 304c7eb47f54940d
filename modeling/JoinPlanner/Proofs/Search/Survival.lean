import JoinPlanner.Proofs.Search.Beam
import JoinPlanner.Proofs.Search.Evaluate

/-!
# What is left of the beam

When a trial finds a finite cost the beam gets an entry, and no later trial empties it. The refinement visits
ranks that have entries (`SearchState.Visiting`); each cut keeps the entries below the rank and at least the least
beam (`SearchState.Between`). So with a positive least beam an entry is left, and the search gives a plan. Without
one the entries are cut away as the ranks go down to 0, and only a search that runs out of steps on its way has a
plan (`Planner.solve_survives`).
-/

namespace JoinPlanner

open CostNumber (infinity le isFinite)
open PlanM (Yields)

variable {κ σ S : Type} {I : S → Prop}

/-- The entries have all predicates in their orders. -/
def Beam.HasOrders (predicates : Nat) (beam : List (Candidate κ)) : Prop :=
  ∀ b ∈ beam, b.order.Perm (List.range predicates)

/-- At a rank of the refinement: there is an entry, and the steps left may lead to so many more visits. -/
structure SearchState.Visiting (config : SearchConfig) (predicates visits rank : Nat) (s : SearchState κ) : Prop where
  orders : Beam.HasOrders predicates s.beam
  rank_lt : rank < s.beam.length
  budget : rank + (config.maxRefinementSteps - s.stats.refinements) ≤ visits

/-- Between the ranks of the refinement: the entries below the rank are left, and at least the least beam. -/
structure SearchState.Between (config : SearchConfig) (predicates visits rank : Nat) (s : SearchState κ) : Prop where
  orders : Beam.HasOrders predicates s.beam
  rank_le : rank ≤ s.beam.length
  budget : rank + (config.maxRefinementSteps - s.stats.refinements) ≤ visits
  kept : 0 < config.minBeam → s.beam ≠ []
  cut : config.minBeam = 0 → s.beam.length = rank

namespace SearchState

variable {s : SearchState κ} {config : SearchConfig} {predicates visits rank : Nat}

theorem Between.visiting (h : s.Between config predicates (visits + 1) (rank + 1)) :
    s.Visiting config predicates visits rank := by
  have hbudget := h.budget
  exact ⟨h.orders, h.rank_le, by omega⟩

theorem Visiting.between (h : s.Visiting config predicates visits rank) :
    Between config predicates visits rank { s with beam := s.beam.take (max rank config.minBeam) } := by
  have hlength : (s.beam.take (max rank config.minBeam)).length = min (max rank config.minBeam) s.beam.length :=
    List.length_take
  have hlt := h.rank_lt
  refine ⟨fun b hb => h.orders b (List.mem_of_mem_take hb), ?_, h.budget, fun hmin hnil => ?_, fun hmin => ?_⟩
  · show rank ≤ (s.beam.take _).length
    omega
  · have hzero : (s.beam.take (max rank config.minBeam)).length = 0 := congrArg List.length hnil
    omega
  · show (s.beam.take _).length = rank
    omega

variable [CostNumber κ] {c base : Candidate κ}

theorem Visiting.afterPerturbation (h : s.Visiting config predicates visits rank)
    (hmax : s.stats.refinements < config.maxRefinementSteps) (hperm : c.order.Perm (List.range predicates)) :
    (s.afterPerturbation base rank c).2.Visiting config predicates visits (s.afterPerturbation base rank c).1 := by
  have hlt := h.rank_lt
  have hbudget := h.budget
  have hsteps := s.refinements_afterPerturbation base c rank
  obtain ⟨hrank, hbeam⟩ | ⟨hrank, hbeam⟩ := s.afterPerturbation_cases base c rank
  · refine ⟨hbeam ▸ h.orders, ?_, by omega⟩
    rw [hrank, hbeam]
    exact hlt
  · refine ⟨fun b hb => ?_, ?_, by omega⟩
    · rcases List.mem_cons.1 (hbeam.mem_iff.1 hb) with rfl | hb
      · exact hperm
      · exact h.orders b hb
    · rw [hbeam.length_eq, List.length_cons]
      omega

end SearchState

namespace Search

variable [CostNumber κ]

/-- Every candidate is evaluated without error, whatever the threshold. -/
def Answers (I : S → Prop) (search : Search κ (PlanM S)) : Prop :=
  ∀ seed order, order.Perm (List.range search.predicates) → ∀ threshold,
    ∃ found, Yields I (search.evaluate seed order threshold) found

/-- After some trials: no steps of the refinement are taken, and a finite cost has left an entry. -/
structure Tried (predicates : Nat) (s : SearchState κ) (log : List (Candidate κ)) : Prop where
  orders : Beam.HasOrders predicates s.beam
  refinements : s.stats.refinements = 0
  found : (∃ c ∈ log, isFinite c.cost = true) → s.beam ≠ []

variable [RandomSource σ] {s : S} {search : Search κ (PlanM S)}

theorem Tried.afterTrial {s : SearchState κ} {log : List (Candidate κ)} (h : Tried search.predicates s log)
    {c : Candidate κ} (hperm : c.order.Perm (List.range search.predicates)) :
    Tried search.predicates (search.afterTrial s c) (c :: log) := by
  have hsteps := (search.refinements_afterTrial s c).trans h.refinements
  obtain ⟨hbeam, hfinite⟩ | ⟨beam, hinsert, hbeam⟩ := search.afterTrial_cases s c
  · refine ⟨hbeam ▸ h.orders, hsteps, fun ⟨c', hc', hfinite'⟩ => ?_⟩
    rw [hbeam]
    rcases List.mem_cons.1 hc' with rfl | hc'
    · exact hfinite hfinite'
    · exact h.found ⟨c', hc', hfinite'⟩
  · refine ⟨fun b hb => ?_, hsteps, fun _ hnil => ?_⟩
    · rw [hbeam] at hb
      rcases List.mem_cons.1 (hinsert.mem_iff.1 (List.mem_of_mem_take hb)) with rfl | hb
      · exact hperm
      · exact h.orders b hb
    · have hlength := congrArg List.length (hbeam.symm.trans hnil)
      have hpos := search.capacity_pos
      rw [List.length_take, hinsert.length_eq, List.length_cons, List.length_nil] at hlength
      omega

theorem lockstep_trial_tried (h : search.Answers I) (s : SearchState κ) :
    ((PlanM.lockstep κ I False).drawing σ).Rel (Tried search.predicates s) (Tried search.predicates)
      (search.recorded.trial s) (search.trial s) :=
  lockstep_trial fun seed order hperm => PlanM.lockstep_answers fun log htried => by
    obtain ⟨found, hfound⟩ := h seed order hperm ((search.trialThreshold s.beam).getD infinity)
    exact ⟨found, found, hfound, hfound, rfl, htried.afterTrial hperm⟩

theorem invariant_visiting (h : search.Answers I) (hchance : search.config.seedChangeChance.isNumber = true) :
    search.recorded.Invariant ((PlanM.lockstep κ I False).drawing σ) search.evaluate search.stop
      (fun visits rank s _ => s.Visiting search.config search.predicates visits rank)
      (fun visits rank s _ => s.Between search.config search.predicates visits rank) where
  enter _ h := h.visiting
  perturb _ {_ base s} hbase hmax := by
    refine lockstep_perturb (fun hnone => absurd hnone (seedChance_ne_none hchance)) fun seed order hperm =>
      PlanM.lockstep_answers fun log hvisiting => ?_
    have hperm' := hperm.trans (hvisiting.orders base (List.mem_of_getElem? hbase))
    obtain ⟨found, hfound⟩ := h seed order hperm' base.cost
    exact ⟨found, found, hfound, hfound, rfl, hvisiting.afterPerturbation hmax hperm'⟩
  cut h := h.between

/-- The search up to the end of its trials. -/
def seedPhase {m : Type → Type} [Monad m] (search : Search κ m) : SearchM σ m (SearchState κ) :=
  search.trials (max search.config.seedTrials 1) { stats.beamCapacity := search.capacity }

/-- If a trial has found a finite cost, an entry is left at the end, or else the least beam is 0; and then one is
left only if the steps have run out. -/
theorem exists_survivor (h : search.Answers I) (hchance : search.config.seedChangeChance.isNumber = true) (hs : I s)
    (source : σ) {log : List (Candidate κ)}
    (hlog : (Prod.snd <$> (search.recorded.seedPhase.run source).run []).result s = .ok log)
    (hfinite : ∃ c ∈ log, isFinite c.cost = true) :
    ∃ r, Yields I (search.run.run source) r ∧ Beam.HasOrders search.predicates r.1.beam ∧
      (0 < search.config.minBeam → r.1.beam ≠ []) ∧
      (search.config.minBeam = 0 → r.1.stats.refinements < search.config.maxRefinementSteps → r.1.beam = []) := by
  have htrials := lockstep_trials (lockstep_trial_tried (σ := σ) h) (max search.config.seedTrials 1)
    { stats.beamCapacity := search.capacity }
  obtain ⟨tried, log', hrecorded, htried, htriedI⟩ := (htrials source []
    ⟨fun _ h => absurd h List.not_mem_nil, rfl, fun ⟨_, h, _⟩ => absurd h List.not_mem_nil⟩).resolve_right And.left
  have hresult : (Prod.snd <$> (search.recorded.seedPhase.run source).run []).result s = .ok log' :=
    (hrecorded.map Prod.snd).result hs
  obtain rfl := Except.ok.inj (hlog.symm.trans hresult)
  have hbetween : tried.1.Between search.config search.predicates
      (tried.1.beam.length + search.config.maxRefinementSteps) tried.1.beam.length := by
    refine ⟨htriedI.orders, le_rfl, ?_, fun _ => htriedI.found hfinite, fun _ => rfl⟩
    rw [htriedI.refinements]
    exact le_rfl
  obtain ⟨r, _, -, hrefine, visits, rank, hend, hdone⟩ :=
    ((invariant_visiting h hchance).refineBelow _ _ tried.1 tried.2 log hbetween).resolve_right And.left
  refine ⟨r, htried.bind hrefine, hend.orders, hend.kept, fun hmin hsteps => ?_⟩
  have hdone : visits = 0 ∨ rank = 0 ∨ search.config.maxRefinementSteps ≤ r.1.stats.refinements := hdone
  have hbudget := hend.budget
  have hrank : rank = 0 := by omega
  exact List.eq_nil_of_length_eq_zero ((hend.cut hmin).trans hrank)

end Search

namespace Planner

variable [CostNumber κ] [RandomSource σ]

/-- The candidates of the trials of a search, with the answers. -/
def tried (planner : Planner κ) (problem : Problem) (ctx : CostContext κ) (source : σ) :
    SessionM κ (List (Candidate κ)) :=
  Prod.snd <$> ((planner.searchFor problem ctx).recorded.seedPhase.run source).run []

variable {planner : Planner κ} {problem : Problem} {ctx : CostContext κ} {s : Session κ}

/-- If the chance of a new seed is a number, as it is in every configuration that is read, all candidates are evaluated
without error and a trial has found a finite cost, then the search comes to an end, with a plan if and only if an
entry is left: one is left if the least beam is positive; if it is 0, none is left unless all steps of the
refinement were taken. -/
theorem solve_survives (source : σ) (hchance : planner.search.seedChangeChance.isNumber = true)
    (hanswer : ∀ seed order, order.Perm (List.range problem.predicates.length) → ∀ threshold,
      ∃ found, (evaluate problem ctx seed order threshold).result s = .ok found)
    {log : List (Candidate κ)} (hlog : (planner.tried problem ctx source).result s = .ok log)
    (hfinite : ∃ c ∈ log, isFinite c.cost = true) :
    ∃ final after, ((planner.searchFor problem ctx).run.run source).result s = .ok (final, after) ∧
      (0 < planner.search.minBeam → final.beam ≠ []) ∧
      (planner.search.minBeam = 0 → final.stats.refinements < planner.search.maxRefinementSteps → final.beam = []) ∧
      (final.beam ≠ [] → ∃ result, (planner.solve problem ctx source).result s = .ok result) ∧
      (final.beam = [] → (planner.solve problem ctx source).result s = .error (.inconsistent .noFinitePlan)) := by
  have hanswers : (planner.searchFor problem ctx).Answers (ctx.Agree s) := by
    intro seed order hperm threshold
    obtain ⟨found, hfound⟩ := hanswer seed order hperm threshold
    exact ⟨found, (repeatable_evaluate ..).yields hfound⟩
  obtain ⟨⟨final, after⟩, hrun, horders, hkept, hcut⟩ :=
    Search.exists_survivor hanswers hchance (.refl s) source hlog hfinite
  refine ⟨final, after, hrun.result (.refl s), hkept, hcut, fun hne => ?_, fun hnil => ?_⟩
  · obtain ⟨best, hbest⟩ := Option.ne_none_iff_exists'.1 (mt List.head?_eq_none_iff.1 hne)
    obtain ⟨time, htime⟩ := hanswer best.seed best.order (horders best (List.mem_of_head? hbest)) infinity
    obtain ⟨tree, cost, hbuild, hcost, -⟩ := evaluate_eq_ok.1 htime
    have hrebuild := Problem.yields_rebuild hbest hbuild (yields_priced (Prod.ext rfl hcost))
    rw [solve_eq]
    exact ⟨_, (hrun.bind hrebuild).result (.refl s)⟩
  · obtain ⟨t, -, hend⟩ := hrun.result_bind (.refl s) fun r => problem.rebuild ctx.priced r.1
    rw [solve_eq, hend, Problem.rebuild_nil hnil]
    rfl

/-- With a least beam of 1 the two trials lead to a plan; with one of 0 the last cut loses it. -/
theorem solve_survives_equiJoin :
    (∃ result, ((twoTrials 1).solve equiJoin CostContext.twoTables (Generator.ofSeed 4)).result {} = .ok result) ∧
    ((twoTrials 0).solve equiJoin CostContext.twoTables (Generator.ofSeed 4)).result {} =
      .error (.inconsistent .noFinitePlan) := by
  have hanswer (seed : UInt64) (order : List Nat) (hperm : order.Perm (List.range equiJoin.predicates.length))
      (threshold : Exact) :
      ∃ found, (evaluate equiJoin CostContext.twoTables seed order threshold).result {} = .ok found := by
    obtain ⟨time, htime⟩ := evaluate_equiJoin seed hperm
    obtain ⟨found, hfound, -⟩ := exists_answer CostConfig.standard_admissible probable_empty htime threshold
    exact ⟨found, hfound⟩
  have htried (minBeam : Nat) (hfinite : (((twoTrials minBeam).tried equiJoin CostContext.twoTables
      (Generator.ofSeed 4)).result {}).toOption.map (·.any fun c => isFinite c.cost) = some true) : ∃ log,
      ((twoTrials minBeam).tried equiJoin CostContext.twoTables (Generator.ofSeed 4)).result {} = .ok log ∧
      ∃ c ∈ log, isFinite c.cost = true := by
    cases hlog : ((twoTrials minBeam).tried equiJoin CostContext.twoTables (Generator.ofSeed 4)).result {} with
    | error e => rw [hlog] at hfinite; cases hfinite
    | ok log =>
      rw [hlog] at hfinite
      exact ⟨log, rfl, List.any_eq_true.1 (Option.some.inj hfinite)⟩
  constructor
  · obtain ⟨log, hlog, hfinite⟩ := htried 1 (by decide +kernel)
    obtain ⟨final, after, -, hkept, -, hplan, -⟩ := solve_survives (Generator.ofSeed 4) rfl hanswer hlog hfinite
    exact hplan (hkept (by decide))
  · obtain ⟨log, hlog, hfinite⟩ := htried 0 (by decide +kernel)
    obtain ⟨final, after, hrun, -, hcut, -, hlost⟩ := solve_survives (Generator.ofSeed 4) rfl hanswer hlog hfinite
    have hsteps : ((((twoTrials 0).searchFor equiJoin CostContext.twoTables).run.run (Generator.ofSeed 4)).result
        {}).toOption.map (·.1.stats.refinements) = some 0 := by
      decide +kernel
    rw [hrun] at hsteps
    have hzero : final.stats.refinements = 0 := Option.some.inj hsteps
    exact hlost (hcut rfl (by rw [hzero]; decide))

end Planner

end JoinPlanner
