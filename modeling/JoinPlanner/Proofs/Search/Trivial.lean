import JoinPlanner.Proofs.Cost.Facts
import JoinPlanner.Proofs.Cost.Volume
import JoinPlanner.Proofs.Search.Evaluate

/-!
# The plan against the trivial plan

The trivial plan of a query joins all relations by Cartesian joins and puts the whole filter on top. It visits every
combination of rows once (`CostContext.time_of_trivialPlan`). A plan that is searched for visits the combinations of
the relations that predicates read a few times for each predicate, and is no worse than the trivial plan if the
other relations have that many combinations (`Planner.planFrom_time_le`). It may be worse if they have not: two
predicates on one table are two filters, each with a visit of every row.
-/

namespace JoinPlanner

open CostNumber (ofCount infinity)

def Relation.scan (r : Relation) : Expr := .relation r.name r.table

namespace JoinGraph

/-- The Cartesian joins of all relations, from the left. -/
def cartesianChain (graph : JoinGraph) : Expr :=
  match graph.relations with
  | [] => .singleRow
  | r :: rest => rest.foldl (fun left r => .join .cartesian left r.scan none {}) r.scan

/-- The Cartesian joins of all relations below the whole filter, which uses no index. -/
def trivialPlan (graph : JoinGraph) (filter : Expr) : Expr := .filter (.select filter none) graph.cartesianChain

end JoinGraph

namespace Catalog

/-- The number of combinations of the rows of relations. -/
def combinations (catalog : Catalog) (relations : List Relation) : ℕ :=
  (relations.map fun r => catalog.rowsOf r.table).prod

variable {catalog : Catalog} {relations : List Relation}

theorem volume_eq_combinations (h : ∀ r ∈ relations, 0 < catalog.rowsOf r.table) :
    catalog.volume relations = catalog.combinations relations :=
  congrArg List.prod (List.map_congr_left fun r hr => max_eq_right (h r hr))

theorem one_le_combinations (h : ∀ r ∈ relations, 0 < catalog.rowsOf r.table) : 1 ≤ catalog.combinations relations :=
  volume_eq_combinations h ▸ one_le_volume

variable (catalog relations) in
theorem combinations_filter (p : Relation → Bool) : catalog.combinations relations =
    catalog.combinations (relations.filter p) * catalog.combinations (relations.filter (!p ·)) := by
  have hperm := (List.filter_append_perm p relations).symm
  rw [combinations, (hperm.map _).prod_eq, List.map_append, List.prod_append]
  rfl

end Catalog

namespace CostContext

variable {ctx : CostContext Exact} {s : Session Exact} {c : Cost Exact}

theorem eq_of_estimate_foldl {rest : List Relation} {left : Expr} {n : ℕ}
    (hleft : ∀ c, ctx.estimate s infinity left = .ok c → c = ⟨ofCount n, ofCount 0⟩)
    (hc : ctx.estimate s infinity (rest.foldl (fun left r => .join .cartesian left r.scan none {}) left) = .ok c) :
    c = ⟨ofCount (n * ctx.catalog.combinations rest), ofCount 0⟩ := by
  induction rest generalizing left n with
  | nil => simpa [Catalog.combinations] using hleft c hc
  | cons r rest ih =>
    have hjoin (c : Cost Exact) (hc : ctx.estimate s infinity (.join .cartesian left r.scan none {}) = .ok c) :
        c = ⟨ofCount (n * ctx.catalog.rowsOf r.table), ofCount 0⟩ := by
      obtain ⟨l, hl, r', hr, hc⟩ := estimate_join_infinity_eq_ok.1 hc
      cases hc
      rw [hleft l hl, eq_of_estimate_relation hr]
      simp [Exact.ofCount_eq]
    rw [ih hjoin hc, Catalog.combinations, Catalog.combinations, List.map_cons, List.prod_cons, mul_assoc]

theorem eq_of_estimate_cartesianChain {graph : JoinGraph}
    (hc : ctx.estimate s infinity graph.cartesianChain = .ok c) :
    c = ⟨ofCount (ctx.catalog.combinations graph.relations), ofCount 0⟩ := by
  unfold JoinGraph.cartesianChain at hc
  cases hrelations : graph.relations with
  | nil =>
    rw [hrelations] at hc
    exact eq_of_estimate_singleRow hc
  | cons r rest =>
    rw [hrelations] at hc
    rw [eq_of_estimate_foldl (fun _ => eq_of_estimate_relation) hc]
    rfl

/-- The trivial plan visits every combination of rows once. -/
theorem time_of_trivialPlan (hconfig : ctx.config = .standard Exact) {graph : JoinGraph} {filter : Expr}
    (hc : ctx.estimate s infinity (graph.trivialPlan filter) = .ok c) :
    c.time = ((ctx.catalog.combinations graph.relations : ℚ) : Exact) := by
  obtain ⟨input, hinput, hc⟩ := estimate_filter_infinity_eq_ok.1 hc
  obtain rfl := eq_of_estimate_cartesianChain hinput
  cases filterRule_of_filterCost hc with
  | probed hprobed => cases hprobed
  | scanned _ _ =>
    rw [scanFactor_eq hconfig]
    simp [Exact.ofCount_eq]

end CostContext

/-! ### Plans that are searched for -/

namespace Query

/-- The predicates that a plan applies at nodes of their own. -/
def applied (query : Query) (graph : JoinGraph) : List Predicate :=
  (query.predicates graph).filter (!·.isStatic)

/-- The visits of all predicates of a query together, if every relation that is read has `least` rows. -/
def visits (query : Query) (graph : JoinGraph) (least : ℕ) : ℚ :=
  ((query.applied graph).map (·.visits least)).sum

/-- The relations that predicates of the query read. -/
def readRelations (query : Query) (graph : JoinGraph) : List Relation :=
  graph.relations.filter (·.IsRead (query.applied graph))

def unreadRelations (query : Query) (graph : JoinGraph) : List Relation :=
  graph.relations.filter fun r => !decide (r.IsRead (query.applied graph))

theorem combinations_relations (query : Query) (catalog : Catalog) (graph : JoinGraph) :
    catalog.combinations graph.relations =
      catalog.combinations (query.readRelations graph) * catalog.combinations (query.unreadRelations graph) :=
  catalog.combinations_filter ..

theorem visits_nonneg {query : Query} {graph : JoinGraph} {least : ℕ} : 0 ≤ query.visits graph least :=
  List.sum_nonneg fun _ => Predicate.nonneg_of_mem_visits

end Query

namespace Problem.Poses

variable {query : Query} {graph : JoinGraph} {problem : Problem}

theorem isRead_iff (h : problem.Poses query graph) (r : Relation) :
    r.IsRead problem.predicates ↔ r.IsRead (query.applied graph) := by
  rw [Query.applied, ← h.predicates]
  simp [Relation.IsRead, Predicate.bare]

theorem sum_visits (h : problem.Poses query graph) (least : ℕ) :
    (problem.predicates.map (·.visits least)).sum = query.visits graph least := by
  rw [Query.visits, Query.applied, ← h.predicates, List.map_map]
  rfl

end Problem.Poses

namespace Planner

variable {σ : Type} [RandomSource σ] {κ : Type} [CostNumber κ]

/-- The context in which the plans of a join graph are priced. -/
def contextOf (planner : Planner κ) (graph : JoinGraph) : CostContext κ :=
  ⟨planner.catalog, graph.baseTables, planner.cost⟩

theorem solve_of_planFrom {planner : Planner κ} {query : Query} {source : σ} {s s' : Statistics κ}
    {result : PlannedQuery κ} (h : (planner.planFrom query source).run.run s = (.ok result, s')) :
    ∃ graph problem s₁ session, JoinGraph.ofTree? query.graph = .ok graph ∧
      (query.toProblem graph ⟨planner.catalog, graph.baseTables, planner.search.sampleFacts⟩).run.run s =
        (.ok problem, s₁) ∧
      (planner.solve problem (planner.contextOf graph) source).run.run { statistics := s₁ } =
        (.ok result, session) ∧ session.statistics = s' := by
  obtain ⟨graph, s₀, hlift, hrest⟩ := StatisticsM.run_bind_eq_ok.1 h
  obtain ⟨problem, s₁, hproblem, hsolve⟩ := StatisticsM.run_bind_eq_ok.1 hrest
  obtain ⟨hgraph, rfl⟩ := StatisticsM.run_lift_eq_ok.1 hlift
  change ((do
    set ((planner.solve problem (planner.contextOf graph) source).run.run { statistics := s₁ }).2.statistics
    ((planner.solve problem (planner.contextOf graph) source).run.run { statistics := s₁ }).1 :
    StatisticsM κ (PlannedQuery κ))).run.run s₁ = _ at hsolve
  refine ⟨graph, problem, s₁,
    ((planner.solve problem (planner.contextOf graph) source).run.run { statistics := s₁ }).2, hgraph, hproblem, ?_⟩
  generalize (planner.solve problem (planner.contextOf graph) source).run.run { statistics := s₁ } = solved
    at hsolve ⊢
  obtain ⟨e | r, session⟩ := solved
  · cases hsolve
  · cases hsolve
    exact ⟨rfl, rfl⟩

section Bounds

variable {planner : Planner Exact} {query : Query} {graph : JoinGraph} {source : σ} {s s' : Statistics Exact}
  {result : PlannedQuery Exact} {least : ℕ}

/-- A plan takes at most the visits of its predicates, each of the volume that they read. -/
theorem time_le_visits (hcost : planner.cost = .standard Exact)
    (hgraph : JoinGraph.ofTree? query.graph = .ok graph) (horder : query.order = []) (hfacts : s.Probable)
    (hplan : (planner.planFrom query source).run.run s = (.ok result, s')) (hleast : 0 < least)
    (hheight : ∀ r ∈ query.readRelations graph, least ≤ planner.catalog.height r) : result.cost.time ≤
      ((query.visits graph least * planner.catalog.volume (query.readRelations graph) : ℚ) : Exact) := by
  obtain ⟨graph', problem, s₁, session, hgraph', hproblem, hsolve, -⟩ := solve_of_planFrom hplan
  obtain rfl := Except.ok.inj (hgraph.symm.trans hgraph')
  have hposes := Query.poses_of_toProblem hproblem
  have hprobable : s₁.Probable := (query.sound_toProblem graph _).probable hproblem hfacts
  have hread : problem.relations.filter (·.IsRead problem.predicates) = query.readRelations graph := by
    rw [hposes.relations]
    exact List.filter_congr fun r _ => decide_eq_decide.2 (hposes.isRead_iff r)
  have hnames : (problem.relations.map (·.name)).Nodup := by
    rw [hposes.relations]
    exact (JoinGraph.nested_of_ofTree? hgraph).names
  have hlow : ∀ r ∈ problem.relations, r.IsRead problem.predicates → least ≤ planner.catalog.height r := by
    intro r hr hisRead
    have hmem : r ∈ problem.relations.filter (·.IsRead problem.predicates) :=
      List.mem_filter.2 ⟨hr, decide_eq_true hisRead⟩
    exact hheight r (hread ▸ hmem)
  obtain ⟨seed, order, tree, hbuild, hprice⟩ := exists_build_of_solve (congrArg Prod.fst hsolve)
  have hconfig : (planner.contextOf graph).config = .standard Exact := hcost
  have htime := CostContext.time_le_of_build hconfig hprobable hbuild
    ((Query.order_of_toProblem hproblem).trans horder) hnames hleast hlow (congrArg Prod.snd hprice)
  rw [hposes.sum_visits, hread] at htime
  exact htime

/-- The plan of a query without an order takes at most so many visits of the relations that its predicates read. If
no table is empty, it takes at most so many times as long as the trivial plan, and no longer than that if the rows of
the other relations have as many combinations. -/
theorem planFrom_time_le (hcost : planner.cost = .standard Exact)
    (hgraph : JoinGraph.ofTree? query.graph = .ok graph) (horder : query.order = []) (hfacts : s.Probable)
    (hplan : (planner.planFrom query source).run.run s = (.ok result, s')) (hleast : 0 < least)
    (hheight : ∀ r ∈ query.readRelations graph, least ≤ planner.catalog.height r) :
    result.cost.time ≤
        ((query.visits graph least * planner.catalog.volume (query.readRelations graph) : ℚ) : Exact) ∧
      ∀ filter ∈ query.filter, (∀ r ∈ graph.relations, 0 < planner.catalog.rowsOf r.table) →
        ∀ t trivial, (planner.contextOf graph).estimate t infinity (graph.trivialPlan filter) = .ok trivial →
          trivial.time = ((planner.catalog.combinations graph.relations : ℚ) : Exact) ∧
          result.cost.time ≤
            ((query.visits graph least * planner.catalog.combinations graph.relations : ℚ) : Exact) ∧
          (query.visits graph least ≤ planner.catalog.combinations (query.unreadRelations graph) →
            result.cost.time ≤ trivial.time) := by
  have htime := time_le_visits hcost hgraph horder hfacts hplan hleast hheight
  refine ⟨htime, fun filter _ hrows t trivial htrivial => ?_⟩
  have hpos (p : Relation → Bool) (r : Relation) (hr : r ∈ graph.relations.filter p) :
      0 < planner.catalog.rowsOf r.table := hrows r (List.mem_of_mem_filter hr)
  have hvolume : planner.catalog.volume (query.readRelations graph) =
      planner.catalog.combinations (query.readRelations graph) := Catalog.volume_eq_combinations (hpos _)
  have htotal : trivial.time = ((planner.catalog.combinations graph.relations : ℚ) : Exact) :=
    CostContext.time_of_trivialPlan hcost htrivial
  refine ⟨htotal, ?_⟩
  rw [hvolume] at htime
  rw [htotal, query.combinations_relations planner.catalog graph, Nat.cast_mul]
  set R := planner.catalog.combinations (query.readRelations graph)
  set U := planner.catalog.combinations (query.unreadRelations graph)
  have hU : (1 : ℚ) ≤ U := Nat.one_le_cast.2 (Catalog.one_le_combinations (hpos _))
  have hR : (0 : ℚ) ≤ R := Nat.cast_nonneg _
  refine ⟨htime.trans (WithTop.coe_le_coe.2 ?_), fun hfew => htime.trans (WithTop.coe_le_coe.2 ?_)⟩
  · exact mul_le_mul_of_nonneg_left (le_mul_of_one_le_right hR hU) Query.visits_nonneg
  · rw [mul_comm]
    exact mul_le_mul_of_nonneg_left hfew hR

end Bounds

/-- A table of three rows, and a search of one trial. -/
def threeRows : Planner Exact where
  catalog := ⟨[(⟨none, "t"⟩,
    { columns := ["x", "y"], rows := #[[.int 1, .int 1], [.int 2, .int 2], [.int 3, .int 3]] })]⟩
  cost := .standard Exact
  search := { seedTrials := 1, refineTriesBest := 0, refineTriesMin := 0 }

/-- `t.x <> 1 AND t.y <> 2`. -/
def twoConditions : Expr := .conjunction
  [.compare .ne (.column ⟨⟨none, "t"⟩, "x"⟩) (.literal (.int 1)),
    .compare .ne (.column ⟨⟨none, "t"⟩, "y"⟩) (.literal (.int 2))]

def threeRowsQuery : Query where
  graph := some (.relation ⟨none, "t"⟩ ⟨none, "t"⟩)
  filter := some twoConditions

def threeRowsGraph : JoinGraph := { relations := [⟨⟨none, "t"⟩, ⟨none, "t"⟩⟩] }

/-- Two conditions on a table of three rows are two filters of three visits each; the trivial plan takes three. -/
theorem planFrom_time_le_threeRows : ∃ result s' trivial,
    (threeRows.planFrom threeRowsQuery (Generator.ofSeed 0)).run.run {} = (.ok result, s') ∧
    (threeRows.contextOf threeRowsGraph).estimate {} infinity (threeRowsGraph.trivialPlan twoConditions) =
      .ok trivial ∧
    trivial.time = (3 : ℚ) ∧ result.cost.time = (6 : ℚ) ∧ result.cost.time ≤ (8 : ℚ) := by
  have hgraph : JoinGraph.ofTree? threeRowsQuery.graph = .ok threeRowsGraph := rfl
  have hplanned : (((threeRows.planFrom threeRowsQuery (Generator.ofSeed 0)).run.run {}).1.toOption.map
      (·.cost.time)) = some ((6 : ℚ) : Exact) := by
    decide +kernel
  have hestimated : ((threeRows.contextOf threeRowsGraph).estimate {} infinity
      (threeRowsGraph.trivialPlan twoConditions)).isOk = true := by
    decide +kernel
  have hheight : ∀ r ∈ threeRowsQuery.readRelations threeRowsGraph, 3 ≤ threeRows.catalog.height r := by
    decide +kernel
  have hvisits : threeRowsQuery.visits threeRowsGraph 3 = 8 / 3 := by decide +kernel
  have hrows : threeRows.catalog.combinations threeRowsGraph.relations = 3 := by decide +kernel
  obtain ⟨trivial, htrivial⟩ := ok_of_isOk hestimated
  cases hplan : (threeRows.planFrom threeRowsQuery (Generator.ofSeed 0)).run.run {} with
  | mk r s' =>
    rw [hplan] at hplanned
    cases r with
    | error e => cases hplanned
    | ok result =>
      obtain ⟨-, hbound⟩ := planFrom_time_le rfl hgraph rfl probable_empty hplan (by decide) hheight
      obtain ⟨htime, hle, -⟩ := hbound twoConditions rfl (by decide +kernel) {} trivial htrivial
      rw [hvisits, hrows] at hle
      rw [hrows] at htime
      exact ⟨result, s', trivial, rfl, htrivial, htime, Option.some.inj hplanned, hle.trans (by decide +kernel)⟩

end Planner

end JoinPlanner
