import JoinPlanner.Expr.Order
import JoinPlanner.Predicate.Basic
import JoinPlanner.Statistics.Store

/-!
# Access paths

Before the search every predicate is given the indexes that may serve it, and its fact if it is
nothing but equalities between two relations. Only ascending indexes serve. A filter on one relation
probes an index whose columns are exactly those of its point equalities, or one whose first column
is that of a range term. A join may probe, once for each row of the other side, an index that begins
with a column that it equates with another relation's. An order on one relation is delivered by an
index that begins with its keys.
-/

namespace JoinPlanner

structure AccessContext where
  catalog : Catalog
  baseTables : List (TableName × TableName)
  sampleFacts : Bool

/-- Actions on the predicate that is given its paths; what it has been given outlasts an error. -/
abbrev MarkM (κ : Type) := ExceptT PlanError (StateT Predicate (StateM (Statistics κ)))

def MarkM.ofStatistics {κ α : Type} (x : StatisticsM κ α) : MarkM κ α := ExceptT.mk x.run

namespace AccessContext
variable (m : AccessContext)

def baseTable (name : TableName) : Except PlanError TableName :=
  match m.baseTables.lookup name with
  | some table => .ok table
  | none => .error (.inconsistent (.unknownAlias name))

def baseColumn (c : ColumnRef) : Except PlanError ColumnRef :=
  return ⟨← m.baseTable c.table, c.column⟩

/-- The base table of an alias and its indexes that may serve. -/
def servingIndexes (name : TableName) : Except PlanError (TableName × List IndexDef) := do
  let table ← m.baseTable name
  let indexes ← m.catalog.indexes table
  return (table, indexes.filter fun i => !i.collation.isEmpty && i.allAscending)

def path (table name : TableName) (i : IndexDef) (range : Option KeyRange) : AccessPath :=
  ⟨table, name, i.name, i.columns, range⟩

end AccessContext

/-- The value of the column of a term that is one point of one column. -/
def Expr.pointTerm? (e : Expr) : Option (String × Value) :=
  match e.rangeTerm? with
  | some (c, range) =>
    match range.width, range.point? with
    | 1, some [v] => some (c.column, v)
    | _, _ => none
  | none => none

/-- The key of an index of which exactly the columns have values. -/
def IndexDef.keyOf? (i : IndexDef) (values : List (String × Value)) : Option Key :=
  if i.columns.length = values.length then i.columns.mapM fun c => values.lookup c else none

namespace AccessContext
variable (m : AccessContext)

/-- The values of the columns of a conjunction of points, the last one if a column has several;
none if there is another term. -/
def pointValues (terms : List Expr) : Option (List (String × Value)) :=
  (terms.mapM Expr.pointTerm?).map fun points =>
    points.foldl (fun found p => p :: found.filter (·.1 != p.1)) []

def pointPaths (table name : TableName) (indexes : List IndexDef) (terms : List Expr) :
    List AccessPath :=
  match pointValues terms with
  | some values =>
    if values.length > 1 then
      indexes.filterMap fun i =>
        (i.keyOf? values).map fun key => path table name i (some (.comparing .eq key))
    else []
  | none => []

/-- The probes of a range term by its column, after the paths found so far. -/
def rangePaths (table name : TableName) (indexes : List IndexDef) (found : List AccessPath)
    (term : Expr) : List AccessPath :=
  match term.rangeTerm? with
  | some (c, range) =>
    indexes.foldl (fun found i =>
      if i.leadingColumn? == some c.column && !found.any (·.index == i.name) then
        found ++ [path table name i (some range)]
      else found) found
  | none => found

def filterPaths (name : TableName) (condition : Expr) : Except PlanError (List AccessPath) := do
  let (table, indexes) ← m.servingIndexes name
  let terms := condition.conjuncts
  return terms.foldl (rangePaths table name indexes) (pointPaths table name indexes terms)

/-- The paths of a relation in a join by the columns that it has in the equalities. -/
def joinPaths (name : TableName) (columns : List String) : Except PlanError (List AccessPath) := do
  if columns.isEmpty then return []
  let (table, indexes) ← m.servingIndexes name
  return (indexes.filter fun i => i.leadingColumn?.any columns.contains).map
    (path table name · none)

def columnsOf (name : TableName) (pairs : List (ColumnRef × ColumnRef)) : List String :=
  (pairs.flatMap fun (l, r) => [l, r]).filterMap fun c =>
    if c.table = name then some c.column else none

/-- The fact of a list of equalities between columns of aliases. -/
def factOf {κ : Type} [CostNumber κ] (pairs : List (ColumnRef × ColumnRef)) :
    StatisticsM κ FactKey := do
  let base ← pairs.mapM fun (l, r) =>
    (do return (← m.baseColumn l, ← m.baseColumn r) : Except PlanError (ColumnRef × ColumnRef))
  let key := FactKey.ofEqualities base
  if m.sampleFacts then
    discard <| Statistics.populateFact m.catalog key base
  return key

/-- Adds to a predicate the paths and the fact of a condition. -/
def markFor {κ : Type} [CostNumber κ] (condition : Expr) : MarkM κ Unit := do
  match condition.tables.toList with
  | [] => return
  | [name] =>
    let paths ← m.filterPaths name condition
    modify fun p => { p with paths }
  | aliases =>
    let pairs := condition.columnPairs
    aliases.forM fun name => do
      let paths ← m.joinPaths name (columnsOf name pairs)
      modify fun p => { p with paths := p.paths ++ paths }
    if !pairs.isEmpty && pairs.length = condition.conjuncts.length && aliases.length = 2 then
      let fact ← .ofStatistics (m.factOf pairs)
      modify fun p => { p with fact := some fact }

def mark {κ : Type} [CostNumber κ] : MarkM κ Unit := do
  modify fun p => { p with paths := [], fact := none }
  m.markFor (← get).condition

def marked {κ : Type} [CostNumber κ] (p : Predicate) : StatisticsM κ Predicate := do
  let ((result, p), statistics) := (m.mark.run.run p).run (← get)
  set statistics
  match result with
  | .ok () => return p
  | .error e => throw e

/-- An index that delivers an order by itself. -/
def orderPath (order : List (SortKey Expr)) : Except PlanError (Option AccessPath) := do
  let some name := SortKey.commonAlias? order | return none
  if order.any (!·.ascending) then return none
  let wanted := order.filterMap fun k => k.key.column?.map (·.column)
  let (table, indexes) ← m.servingIndexes name
  return (indexes.find? fun i => wanted.isPrefixOf i.columns).map (path table name · none)

end AccessContext

end JoinPlanner
