import JoinPlanner.Plan.Text
import JoinPlanner.Planner
import JoinPlanner.Wire.Read
import JoinPlanner.Wire.Write

/-!
# The planning service

Requests bring their own tables and are read tolerantly. `Service.plan` answers a request with the
plan, its cost, the counters of the search and a listing; with status 400 and a text if the tables
are no catalog, and with 422 and a text if planning fails. Floats that are not finite are null in an
answer.
-/

namespace JoinPlanner

open Wire (Data Decode)
open Wire.Data

structure PlanRequest where
  tables : List (TableName × Table)
  query : Query
  /-- The bounds of the search, if they are not the service's own. -/
  config : Option SearchConfig

/-- A table with its name among its fields. -/
def Table.readNamed (d : Data) : Decode (TableName × Table) := do
  let name ← optional (← d.asObject) "table" TableName.read
  return (← Wire.required name, ← Table.read d)

/-- A request is read tolerantly, however its data is. -/
def PlanRequest.read (d : Data) : Decode PlanRequest := withReader (fun _ => .tolerant) do
  let fields ← d.asObject
  let tables ← optional fields "tables" (asList Table.readNamed)
  let config ← nullable fields "config" SearchConfig.read
  return { tables := tables.getD [], query := ← Query.read d, config }

def SearchStats.write (s : SearchStats) : Data :=
  .object [("trials", ofNat s.trials), ("refinements", ofNat s.refinements),
    ("improvements", ofNat s.improvements), ("beam_capacity", ofNat s.beamCapacity)]

structure Response where
  status : Nat
  body : Data

namespace Wire.Data

mutual

/-- The tree with null for every float that is not finite. -/
def finite : Data → Data
  | float x => if x.isFinite then float x else null
  | list items => list (finiteList items)
  | object fields => object (finiteFields fields)
  | d => d

def finiteList : List Data → List Data
  | [] => []
  | d :: rest => d.finite :: finiteList rest

def finiteFields : List (String × Data) → List (String × Data)
  | [] => []
  | f :: rest => finiteField f :: finiteFields rest

def finiteField : String × Data → String × Data
  | (name, d) => (name, d.finite)

end

end Wire.Data

structure Service where
  search : SearchConfig := {}
  cost : CostConfig Float := .standard Float

namespace Service

def ok (body : Data) : Response := ⟨200, body.finite⟩

def health : Response := ok (.object [("status", .text "ok")])

/-- The settings for requests that bring none. -/
def config (s : Service) : Response :=
  ok (.object [("planner", s.search.write), ("cost", s.cost.write)])

/-- The catalog of the tables of a request, none of them named twice. -/
def catalogOf : List (TableName × Table) → Catalog → Except Response Catalog
  | [], catalog => .ok catalog
  | (name, table) :: rest, catalog => do
    if (catalog.tables.lookup name).isSome then
      throw ⟨400, .text ("table " ++ name.render ++ " is listed more than once")⟩
    let catalog ← (catalog.insert name table).mapError fun e =>
      (⟨400, .text ("Invalid table: " ++ e.message)⟩ : Response)
    catalogOf rest catalog

def plan (s : Service) (request : PlanRequest) : Response :=
  match catalogOf request.tables {} with
  | .error response => response
  | .ok catalog =>
    let planner : Planner Float :=
      { catalog, cost := s.cost, search := request.config.getD s.search }
    match ((planner.plan request.query).run.run {}).1 with
    | .error e => ⟨422, .text e.message⟩
    | .ok planned =>
      ok (.object [("plan", planned.plan.write), ("cost", planned.cost.write),
        ("search", planned.search.write), ("explain", .text planned.plan.explain)])

end Service

end JoinPlanner
