import JoinPlanner.Proofs.Candidate.Stored
import JoinPlanner.Proofs.Search.Trivial
import JoinPlanner.Proofs.Wire.Accepted

/-!
# Trees and plans read back

A tree is read back from its wire form as it is, whatever costs were written with it, if no bound of its ranges is of
the empty key. The tree of a plan is made of the query and the catalog, so that it is read back too; and it is priced
as the plan that the planner gave, as pricing is repeatable and its session agrees with the store that the planner
leaves (`Planner.price_of_planFrom`).
-/

namespace JoinPlanner

open CostNumber (infinity)
open Wire (Tolerance)

namespace CostContext

variable {κ : Type} {ctx : CostContext κ}

/-- A session that begins with a store answers as one that has gone on from there. -/
theorem Agree.fresh {s : Statistics κ} {session : Session κ} (h : ctx.Agree { statistics := s } session) :
    ctx.Agree { statistics := s } { statistics := session.statistics } where
  facts := h.facts
  profile c := by
    rw [h.profile c, PlanM.result, PlanM.result, run_profile, run_profile]
  probe path range := by rw [PlanM.result, PlanM.result, run_probe, run_probe]

end CostContext

namespace Planner

section Pricing

variable {κ σ : Type} [CostNumber κ] [RandomSource σ] {planner : Planner κ} {query : Query} {source : σ}
  {s s' : Statistics κ} {result : PlannedQuery κ}

/-- The plan of a planner is that of a candidate, which costs the same in every session that agrees with the store
that the planner leaves. -/
theorem price_of_planFrom (h : (planner.planFrom query source).run.run s = (.ok result, s')) :
    ∃ graph problem seed order, JoinGraph.ofTree? query.graph = .ok graph ∧
      AccessContext.Equips ⟨planner.catalog, graph.baseTables, planner.search.sampleFacts⟩ query graph problem ∧
      problem.build order (Generator.ofSeed seed) = .ok result.plan.toExpr ∧
      ∀ t, (planner.contextOf graph).Agree { statistics := s' } t →
        ((planner.contextOf graph).priced infinity (.ofExpr result.plan.toExpr)).result t =
          .ok (result.plan, result.cost) := by
  obtain ⟨graph, problem, s₁, session, hgraph, hproblem, hsolve, rfl⟩ := solve_of_planFrom h
  obtain ⟨seed, order, tree, hbuild, hprice⟩ := exists_build_of_solve (congrArg Prod.fst hsolve)
  have htree : result.plan.toExpr = tree := by
    have hsame := (planner.contextOf graph).toExpr_price infinity (.ofExpr tree) { statistics := s₁ }
    rwa [hprice, Plan.toExpr_ofExpr] at hsame
  rw [htree]
  refine ⟨graph, problem, seed, order, hgraph, Query.equips_of_toProblem hproblem, hbuild, fun t ht => ?_⟩
  have hsession : (planner.contextOf graph).Agree { statistics := s₁ } session := by
    have hagree := (planner.repeatable_solve problem (planner.contextOf graph) source).agree { statistics := s₁ }
    rwa [hsolve] at hagree
  rw [CostContext.result_priced_eq_ok, ← hprice]
  exact (CostContext.Repeatable.price infinity (.ofExpr tree)).same (hsession.fresh.trans ht).symm

/-- The tree of a plan can be stored if its query can. -/
theorem storable_of_planFrom (h : (planner.planFrom query source).run.run s = (.ok result, s'))
    (hquery : query.Storable) (hcatalog : planner.catalog.Storable) : result.plan.toExpr.Storable := by
  obtain ⟨graph, problem, seed, order, hgraph, hequips, hbuild, -⟩ := price_of_planFrom h
  exact Problem.storable_of_build (hequips.storable hgraph hquery hcatalog) hbuild

/-- Reading undoes writing: a tree whose ranges can be stored is read as it is, whatever costs were written with it.
What is read of a plan of the planner is priced, in any session that agrees with the store that the planner leaves, as
that plan. -/
theorem read_write_priced :
    (∀ e : Expr, e.Storable → ∀ (costs : Costs) (tolerance : Tolerance),
      Expr.read (e.writeWith costs) tolerance = .ok e) ∧
    ∀ (planner : Planner Float) (query : Query) (source : σ) (s s' : Statistics Float) (result : PlannedQuery Float),
      (planner.planFrom query source).run.run s = (.ok result, s') → query.Storable → planner.catalog.Storable →
      ∃ graph, JoinGraph.ofTree? query.graph = .ok graph ∧ ∀ tolerance, ∃ e,
        Expr.read result.plan.write tolerance = .ok e ∧
        ∀ t, (planner.contextOf graph).Agree { statistics := s' } t → ∃ again,
          ((planner.contextOf graph).priced infinity (.ofExpr e)).result t = .ok (again, result.cost) ∧
          again.write = result.plan.write := by
  refine ⟨fun e he => Expr.read_writeWith he, fun planner query source s s' result h hquery hcatalog => ?_⟩
  obtain ⟨graph, -, -, -, hgraph, -, -, hprice⟩ := price_of_planFrom h
  refine ⟨graph, hgraph, fun tolerance => ⟨result.plan.toExpr, ?_, fun t ht => ⟨result.plan, hprice t ht, rfl⟩⟩⟩
  rw [Plan.write_eq]
  exact Expr.read_writeWith (storable_of_planFrom h hquery hcatalog) _ tolerance

end Pricing

/-- A planner of one table with an index, that makes one trial. -/
def oneIndex : Planner Float where
  catalog := ⟨[(⟨none, "t"⟩,
    { columns := ["x"], rows := #[[.int 1], [.int 2], [.int 3]], indexes := [.ofColumns "tx" ["x"]] })]⟩
  cost := .standard Float
  search := { seedTrials := 1, refineTriesBest := 0, refineTriesMin := 0 }

/-- `x > 1`, as a range term. -/
def aboveOne : Expr := .inRange ⟨⟨none, "t"⟩, "x"⟩ (.comparing .gt [.int 1])

def aboveOneQuery : Query where
  graph := some (.relation ⟨none, "t"⟩ ⟨none, "t"⟩)
  filter := some aboveOne

theorem storable_aboveOne : aboveOne.Storable := Expr.storable_inRange (.comparing .gt (by decide) (by decide))

/-- A range term with a cost, and the plan of a filter by it through an index. -/
theorem read_write_priced_oneIndex :
    Expr.read (aboveOne.writeWith (.root (some ⟨1, 2⟩))) .strict = .ok aboveOne ∧
    ∃ result s', (oneIndex.planFrom aboveOneQuery (Generator.ofSeed 0)).run.run {} = (.ok result, s') ∧
      ∃ e again, Expr.read result.plan.write .strict = .ok e ∧
        ((oneIndex.contextOf threeRowsGraph).priced infinity (.ofExpr e)).result { statistics := s' } =
          .ok (again, result.cost) ∧ again.write = result.plan.write := by
  have hquery : aboveOneQuery.Storable :=
    ⟨List.forall_mem_singleton.2 storable_aboveOne, nofun⟩
  have hcatalog : oneIndex.catalog.Storable := by simp [Catalog.Storable, oneIndex, IndexDef.ofColumns, IndexDef.columns]
  obtain ⟨htrees, hplans⟩ := read_write_priced (σ := Generator)
  have hplanned : ((oneIndex.planFrom aboveOneQuery (Generator.ofSeed 0)).run.run {}).1.isOk = true := by
    decide +kernel
  refine ⟨htrees _ storable_aboveOne _ _, ?_⟩
  cases hplan : (oneIndex.planFrom aboveOneQuery (Generator.ofSeed 0)).run.run {} with
  | mk r s' =>
    rw [hplan] at hplanned
    obtain ⟨result, rfl⟩ := ok_of_isOk hplanned
    obtain ⟨graph, hgraph, hread⟩ := hplans _ _ _ _ _ _ hplan hquery hcatalog
    obtain rfl : threeRowsGraph = graph := Except.ok.inj hgraph
    obtain ⟨e, he, hprice⟩ := hread .strict
    obtain ⟨again, hagain, hwrite⟩ := hprice _ (.refl _)
    exact ⟨result, s', rfl, e, again, he, hagain, hwrite⟩

/-- A range term by the range of the empty key, which the operations give. -/
def inEmptyKeyOnly : Expr := .inRange ⟨⟨none, "t"⟩, "x"⟩ .emptyKeyOnly

/-- Its wire form is refused. -/
theorem read_write_inEmptyKeyOnly : inEmptyKeyOnly.RangesIn KeyRange.Obtained ∧
    Expr.read (inEmptyKeyOnly.writeWith .none) .strict = .error (.range .emptyKey) := by
  refine ⟨.intro _ (List.forall_mem_singleton.2 KeyRange.obtained_emptyKeyOnly) ?_, rfl⟩
  exact List.forall_mem_singleton.2 (.intro _ nofun nofun)

end Planner

end JoinPlanner
