import JoinPlanner.Cost.Relation
import JoinPlanner.Expr.Order
import JoinPlanner.Plan.Basic
import JoinPlanner.Statistics.Store

/-!
# The cost model

Rows and time of every operator of a plan, from the leaves up. An alias costs nothing; a filter
through an index costs two lookups, any other a scan of its input; a sort costs two lookups if the
order is there already, else one for each row; a join by a simple relation costs a scan and two
lookups for each left row, and without an index on the right one lookup for each right row; any
other join compares every two rows, at a penalty. A left outer join keeps at least its left rows.

Pricing takes a threshold. Once an input takes longer, its consumer takes infinitely long and the
other inputs are left without cost.
-/

namespace JoinPlanner

structure CostContext (κ : Type) where
  catalog : Catalog
  /-- The base table of an alias; any other name is that of a base table. -/
  baseTables : List (TableName × TableName)
  config : CostConfig κ

/-- What pricing finds once and keeps: statistics, and the number of rows of every probed range. -/
structure Session (κ : Type) where
  statistics : Statistics κ := {}
  probes : List ((TableName × String × KeyRange) × Nat) := []
deriving Inhabited

/-- Actions on a session; what they have found outlasts an error. -/
abbrev SessionM (κ : Type) := PlanM (Session κ)

def SessionM.ofStatistics {κ α : Type} (x : StatisticsM κ α) : SessionM κ α :=
  ExceptT.mk fun s =>
    let (result, statistics) := x.run.run s.statistics
    (result, { s with statistics })

namespace CostContext
variable {κ : Type} (ctx : CostContext κ)

def baseTable (name : TableName) : TableName := (ctx.baseTables.lookup name).getD name

def baseColumn (c : ColumnRef) : ColumnRef := ⟨ctx.baseTable c.table, c.column⟩

def profile (c : ColumnRef) : SessionM κ ColumnProfile :=
  .ofStatistics (Statistics.column ctx.catalog (ctx.baseColumn c))

/-- The number of rows in a range of an index, counted once for every range. -/
def probe (path : AccessPath) (range : KeyRange) : SessionM κ Nat := do
  let key := (path.table, path.index, range)
  match (← get).probes.lookup key with
  | some count => return count
  | none =>
    let count ← (ctx.catalog.probe path.table path.index range : Except CatalogError Nat).mapError
      PlanError.catalog
    modify fun s => { s with probes := (key, count) :: s.probes }
    return count

def termSelectivity (term : Expr) : SessionM κ Nat := do
  match term.rangeTerm?, term.comparison? with
  | some (c, range), _ => return (← ctx.profile c).estimateRange range
  | none, some (op, a, b) =>
    match a.column? <|> b.column? with
    | some c => return (← ctx.profile c).estimateComparison op
    | none => return divisionPoints
  | none, none => return divisionPoints

/-- The selectivity of a predicate, in division points: that of its most selective conjunct. -/
def selectivity (predicate : Expr) : SessionM κ Nat :=
  match predicate.conjuncts with
  | [] | [_] => ctx.termSelectivity predicate
  | terms =>
    terms.foldlM (fun best term => do return min best (← ctx.termSelectivity term)) divisionPoints

variable [CostNumber κ]

open CostNumber (ofCount infinity lt)

def twoLookups : κ := ofCount 2 * ctx.config.indexLookupCost

/-- The rows found by the probe of a filter directly above the alias that its path reads. -/
def probedRows (path : Option AccessPath) (child : Plan κ) : SessionM κ (Option Nat) := do
  match path, child with
  | some path, .leaf (.aliased name _) _ =>
    match path.range with
    | some range =>
      if name = path.relation then return some (← ctx.probe path range) else return none
    | none => return none
  | _, _ => return none

def filterCost (kind : FilterKind Expr) (child : Plan κ) (input : Cost κ) :
    SessionM κ (Cost κ) := do
  match kind with
  | .select predicate path =>
    match ← ctx.probedRows path child with
    | some count =>
      return ⟨CostNumber.min (ofCount count) input.rows, input.time + ctx.twoLookups⟩
    | none =>
      let points ← ctx.selectivity predicate
      return ⟨input.rows * (ofCount points / ofCount divisionPoints),
        input.time + input.rows * ctx.config.scanFactor⟩
  | .sort keys path =>
    if path.isSome || OrderKey.satisfies child.toExpr.naturalOrder keys then
      return ⟨input.rows, input.time + ctx.twoLookups⟩
    else return ⟨input.rows, input.time + input.rows * ctx.config.indexLookupCost⟩
  | .guard _ | .computed | .aggregate _ => return input

/-- The rows of a join by a simple relation: by its fact, if the probability is known, else by a
rule for equalities and one for inequalities. -/
def relationRows (op : Comparison) (probability : Option κ) (left right : κ) : κ :=
  match probability with
  | some p => p * left * right
  | none =>
    if op = .eq then
      CostNumber.min left right
        + CostNumber.abs (right - left) / ctx.config.equiJoinSpreadDivisor
    else ctx.config.inequalityJoinFraction * left * right

def conditionCost (relation : Option SimpleRelation) (hints : JoinHints) (probability : Option κ)
    (left right : Cost κ) : Cost κ :=
  let config := ctx.config
  match relation with
  | some relation =>
    let time := left.time + right.time + left.rows * (config.scanFactor + ctx.twoLookups)
    { rows := ctx.relationRows relation.op probability left.rows right.rows
      time := if hints.rightPath.isSome then time
        else time + right.rows * config.indexLookupCost }
  | none =>
    { rows := left.rows * right.rows
      time := left.time + right.time
        + left.rows * right.rows * config.scanFactor * config.noRelationPenalty }

def joinCost (kind : JoinKind) (left right : Plan κ) (on : Option Expr) (hints : JoinHints)
    (l r : Cost κ) : SessionM κ (Cost κ) := do
  match kind with
  | .cartesian => return ⟨l.rows * r.rows, l.time + r.time⟩
  | .inner | .leftOuter =>
    let relation := on.bind fun e => SimpleRelation.detect e left.relations right.relations
    let probability := hints.fact.bind (← get).statistics.fact?
    let cost := ctx.conditionCost relation hints probability l r
    if kind = .leftOuter && lt cost.rows l.rows then return ⟨l.rows, cost.time⟩ else return cost
  | .rightOuter | .fullOuter => throw (.unsupportedJoin kind .costing)

def leafCost : Expr → SessionM κ (Cost κ)
  | .aliased _ (.table base) => do
    let rows ← (ctx.catalog.rowCount base).mapError PlanError.catalog
    return ⟨ofCount rows, ofCount 0⟩
  | .aliased _ source => throw (.unexpectedNode source .aliasSource)
  | .apply _ _ => return ⟨ofCount 1, ofCount 0⟩
  | e => throw (.unexpectedNode e .operatorTree)

/-- A plan with the cost that was found for its root, if one was. -/
def annotate (p : Plan κ) : Except PlanError (Cost κ) → Plan κ × Except PlanError (Cost κ)
  | .ok cost => (p.withCost (some cost), .ok cost)
  | .error e => (p, .error e)

/-- Prices a plan up to a threshold. A node that has a cost is left as it is; a node below which an
error arose stays without one. -/
def price (threshold : κ) :
    Plan κ → StateM (Session κ) (Plan κ × Except PlanError (Cost κ))
  | .leaf e (some cost) => return (.leaf e (some cost), .ok cost)
  | .leaf e none => return annotate (.leaf e none) (← (ctx.leafCost e).run)
  | .filter kind child (some cost) => return (.filter kind child (some cost), .ok cost)
  | .filter kind child none => do
    let (child, input) ← price threshold child
    let p := Plan.filter kind child none
    match input with
    | .error e => return (p, .error e)
    | .ok input =>
      if lt threshold input.time then return annotate p (.ok ⟨input.rows, infinity⟩)
      else return annotate p (← (ctx.filterCost kind child input).run)
  | .join kind left right on hints (some cost) =>
    return (.join kind left right on hints (some cost), .ok cost)
  | .join kind left right on hints none => do
    let (left, l) ← price threshold left
    match l with
    | .error e => return (.join kind left right on hints none, .error e)
    | .ok l =>
      if lt threshold l.time then
        return annotate (.join kind left right on hints none) (.ok ⟨l.rows, infinity⟩)
      else
        let (right, r) ← price threshold right
        let p := Plan.join kind left right on hints none
        match r with
        | .error e => return (p, .error e)
        | .ok r =>
          if lt threshold r.time then return annotate p (.ok ⟨l.rows * r.rows, infinity⟩)
          else return annotate p (← (ctx.joinCost kind left right on hints l r).run)

def priced (threshold : κ) (p : Plan κ) : SessionM κ (Plan κ × Cost κ) := do
  let (p, result) ← (ctx.price threshold p : StateM (Session κ) _)
  return (p, ← result)

end CostContext

end JoinPlanner
