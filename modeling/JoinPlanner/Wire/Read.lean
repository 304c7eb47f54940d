import JoinPlanner.Plan.Basic
import JoinPlanner.Query
import JoinPlanner.Statistics.Column
import JoinPlanner.Wire.Data

/-!
# Reading data trees

The inverse of writing, and a little freer: unknown fields are passed over, an absent value may be
left out, and an alternative that carries nothing may carry null. The fields of an object are
read in the order of their names, before it is asked whether one is missing; so the first fault in
that order is the one reported. The cost of a node is not read.
-/

namespace JoinPlanner

open Wire
open Wire.Data

def TableName.read (d : Data) : Decode TableName := do
  let fields ← d.asObject
  let name ← optional fields "name" asText
  let schema ← nullable fields "schema" asText
  return { schema, name := ← required name }

def ColumnRef.read (d : Data) : Decode ColumnRef := do
  let fields ← d.asObject
  let column ← optional fields "column" asText
  let table ← optional fields "table" TableName.read
  return { table := ← required table, column := ← required column }

def Value.read (d : Data) : Decode Value := do
  match ← d.asVariant with
  | ("Null", payload) => asUnit .null payload
  | ("Bool", some payload) => return .bool (← payload.asBool)
  | ("Int64", some payload) =>
    return .int (.ofInt (← payload.asInt Int64.minValue.toInt Int64.maxValue.toInt))
  | ("Float64", some payload) => return .float (← payload.asFloat)
  | ("Utf8", some payload) => return .text (← payload.asText)
  | ("Date", some payload) =>
    return .date (.ofInt (← payload.asInt Int32.minValue.toInt Int32.maxValue.toInt))
  | _ => malformed

def KeyBound.read (d : Data) : Decode KeyBound := do
  match ← d.asVariant with
  | ("BeforeFirst", payload) => asUnit .beforeFirst payload
  | ("First", payload) => asUnit .first payload
  | ("Before", some payload) => return .before (← payload.asList Value.read)
  | ("After", some payload) => return .after (← payload.asList Value.read)
  | ("Last", payload) => asUnit .last payload
  | ("AfterLast", payload) => asUnit .afterLast payload
  | _ => malformed

def KeyInterval.read (d : Data) : Decode KeyInterval := do
  let fields ← d.asObject
  let lower ← optional fields "lower" KeyBound.read
  let upper ← optional fields "upper" KeyBound.read
  return { lower := ← required lower, upper := ← required upper }

/-- Checks that the key of a bound has the width of its range. -/
def KeyBound.checkWidth (width : Nat) (bound : KeyBound) : Except RangeError Unit :=
  match bound.key? with
  | none => .ok ()
  | some key =>
    if key.isEmpty then .error .emptyKey
    else if key.length = width then .ok ()
    else .error (.widthMismatch width key.length)

/-- The range of given intervals, all of whose bounds must have the width. -/
def KeyRange.ofCheckedIntervals (width : Nat) (intervals : List KeyInterval) :
    Except RangeError KeyRange := do
  intervals.forM fun i => do
    i.lower.checkWidth width
    i.upper.checkWidth width
  return .ofIntervals width intervals

def KeyRange.read (d : Data) : Decode KeyRange := do
  let fields ← d.asObject
  let intervals ← optional fields "pairs" (asList KeyInterval.read)
  let width ← optional fields "width" asCount
  let intervals ← required intervals
  let range ← KeyRange.ofCheckedIntervals (← required width) intervals
  return range

def AccessPath.read (d : Data) : Decode AccessPath := do
  let fields ← d.asObject
  let relation ← optional fields "alias" TableName.read
  let columns ← optional fields "columns" (asList asText)
  let index ← optional fields "index_name" asText
  let range ← nullable fields "range" KeyRange.read
  let table ← optional fields "table" TableName.read
  return { table := ← required table, relation := ← required relation, index := ← required index,
           columns := ← required columns, range }

def FactKey.read (d : Data) : Decode FactKey := return ⟨← d.asText⟩

def JoinHints.read (d : Data) : Decode JoinHints := do
  let fields ← d.asObject
  let fact ← nullable fields "fact" FactKey.read
  let leftPath ← nullable fields "left_index" AccessPath.read
  let rightPath ← nullable fields "right_index" AccessPath.read
  return { leftPath, rightPath, fact }

def Comparison.read : Data → Decode Comparison := asNamed Comparison.all Comparison.name

def Arithmetic.read : Data → Decode Arithmetic := asNamed Arithmetic.all Arithmetic.name

def JoinKind.read : Data → Decode JoinKind := asNamed JoinKind.all JoinKind.name

def FunctionOp.read (d : Data) : Decode FunctionOp := do
  match ← d.asVariant with
  | ("Compare", some payload) => return .compare (← Comparison.read payload)
  | ("And", payload) => asUnit .and payload
  | ("Or", payload) => asUnit .or payload
  | ("Not", payload) => asUnit .not payload
  | ("Arith", some payload) => return .arith (← Arithmetic.read payload)
  | ("RangeSet", some payload) => return .inRange (← KeyRange.read payload)
  | ("Call", some payload) => return .call (← payload.asText)
  | _ => malformed

def SortKey.readWith (expr : Data → Decode Expr) (d : Data) : Decode (SortKey Expr) := do
  let fields ← d.asObject
  let ascending ← optional fields "ascending" asBool
  let key ← optional fields "expr" expr
  return { ascending := ← required ascending, key := ← required key }

def FilterKind.readWith (expr : Data → Decode Expr) (d : Data) : Decode (FilterKind Expr) := do
  match ← d.asVariant with
  | ("SingleFilter", some payload) => do
    let fields ← payload.asObject
    let path ← nullable fields "index" AccessPath.read
    let predicate ← optional fields "predicate" expr
    return .select (← required predicate) path
  | ("Sort", some payload) => do
    let fields ← payload.asObject
    let path ← nullable fields "index" AccessPath.read
    let keys ← optional fields "order" (asList (SortKey.readWith expr))
    return .sort (← required keys) path
  | ("StaticFilter", some payload) => do
    let fields ← payload.asObject
    let predicate ← optional fields "predicate" expr
    return .guard (← required predicate)
  | ("ExpressionTable", payload) => asUnit .computed payload
  | ("Aggregate", some payload) => do
    let fields ← payload.asObject
    let groupBy ← optional fields "group_by" (asList expr)
    return .aggregate (groupBy.getD [])
  | _ => malformed

def Expr.readKind (expr : Data → Decode Expr) (d : Data) : Decode Expr := do
  match ← d.asVariant with
  | ("Join", some payload) => do
    let fields ← payload.asObject
    let on ← nullable fields "filter" expr
    let kind ← optional fields "join_type" JoinKind.read
    let left ← optional fields "left" expr
    let right ← optional fields "right" expr
    let hints ← optional fields "strategy" JoinHints.read
    return .join (← required kind) (← required left) (← required right) on (hints.getD {})
  | ("Filter", some payload) => do
    let fields ← payload.asObject
    let child ← optional fields "child" expr
    let kind ← optional fields "kind" (FilterKind.readWith expr)
    return .filter (← required kind) (← required child)
  | ("Function", some payload) => do
    let fields ← payload.asObject
    let args ← optional fields "args" (asList expr)
    let op ← optional fields "op" FunctionOp.read
    return .apply (← required op) (args.getD [])
  | ("FetchVariable", some payload) => return .column (← ColumnRef.read payload)
  | ("FetchStatic", some payload) => return .literal (← Value.read payload)
  | ("FetchTable", some payload) => return .table (← TableName.read payload)
  | ("AliasTableName", some payload) => do
    let fields ← payload.asObject
    let name ← optional fields "alias" TableName.read
    let source ← optional fields "source" expr
    return .aliased (← required name) (← required source)
  | _ => malformed

/-- Reads an expression whose data has at most so many levels. -/
def Expr.readAt : Nat → Data → Decode Expr
  | 0, _ => malformed
  | levels + 1, d => do
    let fields ← d.asObject
    let kind ← optional fields "kind" (Expr.readKind (Expr.readAt levels))
    required kind

def Expr.read (d : Data) : Decode Expr := Expr.readAt d.depth d

def SortKey.read : Data → Decode (SortKey Expr) := SortKey.readWith Expr.read

def IndexColumn.read (d : Data) : Decode IndexColumn := do
  let fields ← d.asObject
  let ascending ← optional fields "ascending" asBool
  let column ← optional fields "column" asText
  return { column := ← required column, ascending := ascending.getD true }

def IndexDef.read (d : Data) : Decode IndexDef := do
  let fields ← d.asObject
  let collation ← optional fields "collation" (asList IndexColumn.read)
  let name ← optional fields "name" asText
  return { name := ← required name, collation := ← required collation }

def Table.read (d : Data) : Decode Table := do
  let fields ← d.asObject
  let columns ← optional fields "columns" (asList asText)
  let indexes ← optional fields "indexes" (asList IndexDef.read)
  let rows ← optional fields "rows" (asList (asList Value.read))
  return { columns := ← required columns, rows := (rows.getD []).toArray,
           indexes := indexes.getD [] }

def ColumnProfile.read (d : Data) : Decode ColumnProfile := do
  let fields ← d.asObject
  let points ← optional fields "points" (asList Value.read)
  let rowCount ← optional fields "row_count" asCount
  let sampleCount ← optional fields "sample_count" asCount
  return { points := ← required points, rowCount := ← required rowCount,
           sampleCount := ← required sampleCount }

def Cost.read (d : Data) : Decode (Cost Float) := do
  let fields ← d.asObject
  let rows ← optional fields "rows" asFloat
  let time ← optional fields "time" asFloat
  return { rows := ← required rows, time := ← required time }

def CostConfig.read (d : Data) : Decode (CostConfig Float) := do
  let fields ← d.asObject
  let setting (name : String) (standard : Float) : Decode Float :=
    return (← optional fields name asFloat).getD standard
  let standard := CostConfig.standard Float
  return {
    indexLookupCost := ← setting "index_lookup_cost" standard.indexLookupCost
    scanFactor := ← setting "scan_factor" standard.scanFactor
    noRelationPenalty := ← setting "no_relation_penalty" standard.noRelationPenalty
    inequalityJoinFraction :=
      ← setting "inequality_join_fraction" standard.inequalityJoinFraction
    equiJoinSpreadDivisor := ← setting "equi_join_spread_divisor" standard.equiJoinSpreadDivisor }

def SearchConfig.read (d : Data) : Decode SearchConfig := do
  let fields ← d.asObject
  let setting {α : Type} (name : String) (value : Data → Decode α) (standard : α) : Decode α :=
    return (← optional fields name value).getD standard
  let standard : SearchConfig := {}
  return {
    seedTrials := ← setting "seed_trials" asCount standard.seedTrials
    minBeam := ← setting "min_beam" asCount standard.minBeam
    maxBeam := ← setting "max_beam" asCount standard.maxBeam
    messFraction := ← setting "mess_fraction" asFloat standard.messFraction
    refineTriesBest := ← setting "refine_tries_best" asCount standard.refineTriesBest
    refineTriesMin := ← setting "refine_tries_min" asCount standard.refineTriesMin
    seedChangeChance :=
      ← setting "seed_change_chance" (.ofFloat <$> asFloat ·) standard.seedChangeChance
    maxRefinementSteps := ← setting "max_refinement_steps" asCount standard.maxRefinementSteps
    rngSeed := (← nullable fields "rng_seed" asCount).map UInt64.ofNat
    sampleFacts := ← setting "sample_facts" asBool standard.sampleFacts }

def Query.read (d : Data) : Decode Query := do
  let fields ← d.asObject
  let filter ← nullable fields "filter" Expr.read
  let graph ← nullable fields "join_graph" Expr.read
  let order ← optional fields "order" (asList SortKey.read)
  return { graph, filter, order := order.getD [] }

end JoinPlanner
