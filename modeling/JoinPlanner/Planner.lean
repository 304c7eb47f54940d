import JoinPlanner.Candidate.Build
import JoinPlanner.Cost.Model
import JoinPlanner.Predicate.AccessPath
import JoinPlanner.Predicate.OuterJoin
import JoinPlanner.Random.Generator
import JoinPlanner.Search.Run

/-!
# Planning

A query becomes a problem: its join graph is flattened, its filters simplified, split into
predicates and given their access paths. The search then finds the cheapest candidate plan that it
comes across, whatever the cost model; the planner's own is that of `CostContext.priced`.
-/

namespace JoinPlanner

def Query.predicates (query : Query) (graph : JoinGraph) : List Predicate :=
  let pool := match query.filter with
    | some filter => Predicate.addFilter filter.simplify ∅ []
    | none => []
  let pool := graph.filters.foldl (fun pool f =>
    Predicate.addScopedFilter f.condition.simplify f.inside f.scope pool) pool
  Predicate.propagate graph.outerJoins pool

/-- Checks that a predicate that is no constant has relations, all of them of the query. -/
def Predicate.checkTables (known : TableSet) (p : Predicate) : Except PlanError Unit :=
  if p.tables.isEmpty then .error (.inconsistent (.unboundConstant p.condition p.inside))
  else
    match p.tables.toList.find? (!known.contains ·) with
    | some table => .error (.unschedulable p.condition (.foreignTable table))
    | none => .ok ()

def Query.toProblem {κ : Type} [CostNumber κ] (query : Query) (graph : JoinGraph)
    (context : AccessContext) : StatisticsM κ Problem := do
  let (statics, others) := (query.predicates graph).partition (·.isStatic)
  let predicates ← others.mapM fun p => do
    p.checkTables graph.aliases
    context.marked p
  let sortPath ← context.orderPath query.order
  return { relations := graph.relations, predicates, statics := statics.map (·.condition),
           order := query.order, sortPath }

structure PlannedQuery (κ : Type) where
  plan : Plan κ
  cost : Cost κ
  search : SearchStats

/-- Prices a plan up to a threshold, and gives the plan with its costs. -/
abbrev CostModel (κ S : Type) := κ → Plan κ → PlanM S (Plan κ × Cost κ)

namespace Problem
variable {κ S : Type} [CostNumber κ] (problem : Problem) (model : CostModel κ S)

/-- The time of the candidate of a seed and an order, up to a threshold. -/
def evaluate (seed : UInt64) (order : List Nat) (threshold : κ) : PlanM S κ := do
  let tree ← problem.build order (Generator.ofSeed seed)
  let (_, cost) ← model threshold (.ofExpr tree)
  return cost.time

def search (config : SearchConfig) : Search κ (PlanM S) where
  config
  relations := problem.relations.length
  predicates := problem.predicates.length
  evaluate := problem.evaluate model
  stop := throw .invalidChance

/-- The plan of the best candidate, built and priced once more. -/
def rebuild (final : SearchState κ) : PlanM S (PlannedQuery κ) := do
  let some best := final.beam.head? | throw (.inconsistent .noFinitePlan)
  let tree ← problem.build best.order (Generator.ofSeed best.seed)
  let (plan, cost) ← model CostNumber.infinity (.ofExpr tree)
  return { plan, cost, search := final.stats }

/-- The best plan that a search from a random source finds. -/
def solve {σ : Type} [RandomSource σ] (config : SearchConfig) (source : σ) :
    PlanM S (PlannedQuery κ) := do
  let (final, _) ← (problem.search model config).run.run source
  problem.rebuild model final

end Problem

structure Planner (κ : Type) where
  catalog : Catalog
  cost : CostConfig κ
  search : SearchConfig

namespace Planner
variable {κ : Type} [CostNumber κ] (planner : Planner κ)

def evaluate (problem : Problem) (context : CostContext κ) (seed : UInt64) (order : List Nat)
    (threshold : κ) : SessionM κ κ :=
  problem.evaluate context.priced seed order threshold

/-- The best plan that a search from a random source finds for a problem. -/
def solve {σ : Type} [RandomSource σ] (problem : Problem) (context : CostContext κ) (source : σ) :
    SessionM κ (PlannedQuery κ) :=
  problem.solve context.priced planner.search source

/-- Plans a query with the draws of a source. Statistics outlast the query, probes do not. -/
def planFrom {σ : Type} [RandomSource σ] (query : Query) (source : σ) :
    StatisticsM κ (PlannedQuery κ) := do
  let graph ← JoinGraph.ofTree? query.graph
  let problem ← query.toProblem graph
    { catalog := planner.catalog, baseTables := graph.baseTables,
      sampleFacts := planner.search.sampleFacts }
  let context : CostContext κ :=
    { catalog := planner.catalog, baseTables := graph.baseTables, config := planner.cost }
  let (result, session) := (planner.solve problem context source).run.run { statistics := ← get }
  set session.statistics
  result

/-- Plans a query with the draws of the planner's own seed. -/
def plan (query : Query) : StatisticsM κ (PlannedQuery κ) :=
  planner.planFrom query (Generator.ofSeed (planner.search.rngSeed.getD 0))

end Planner

end JoinPlanner
