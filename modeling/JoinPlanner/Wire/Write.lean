import JoinPlanner.Expr.Order
import JoinPlanner.Plan.Basic
import JoinPlanner.Query
import JoinPlanner.Statistics.Column
import JoinPlanner.Wire.Data

/-!
# Writing data trees

An alternative that carries nothing is its name, one that carries data an object of one field. Every
field is written, an absent value as null.
-/

namespace JoinPlanner

open Wire (Data)
open Wire.Data (variant ofOption ofList ofNat)

def TableName.write (t : TableName) : Data :=
  .object [("schema", ofOption .text t.schema), ("name", .text t.name)]

def ColumnRef.write (c : ColumnRef) : Data :=
  .object [("table", c.table.write), ("column", .text c.column)]

def Value.write : Value → Data
  | null => .text "Null"
  | bool b => variant "Bool" (.bool b)
  | int n => variant "Int64" (.int n.toInt)
  | float x => variant "Float64" (.float x)
  | text s => variant "Utf8" (.text s)
  | date day => variant "Date" (.int day.toInt)

def KeyBound.write : KeyBound → Data
  | beforeFirst => .text "BeforeFirst"
  | first => .text "First"
  | before key => variant "Before" (ofList Value.write key)
  | after key => variant "After" (ofList Value.write key)
  | last => .text "Last"
  | afterLast => .text "AfterLast"

def KeyInterval.write (i : KeyInterval) : Data :=
  .object [("lower", i.lower.write), ("upper", i.upper.write)]

def KeyRange.write (r : KeyRange) : Data :=
  .object [("width", ofNat r.width), ("pairs", ofList KeyInterval.write r.intervals)]

def AccessPath.write (p : AccessPath) : Data :=
  .object [("table", p.table.write), ("alias", p.relation.write), ("index_name", .text p.index),
    ("columns", ofList .text p.columns), ("range", ofOption KeyRange.write p.range)]

def FactKey.write (f : FactKey) : Data := .text f.text

def JoinHints.write (h : JoinHints) : Data :=
  .object [("left_index", ofOption AccessPath.write h.leftPath),
    ("right_index", ofOption AccessPath.write h.rightPath), ("fact", ofOption FactKey.write h.fact)]

def Comparison.write (op : Comparison) : Data := .text op.name

def Arithmetic.write (op : Arithmetic) : Data := .text op.name

def JoinKind.write (kind : JoinKind) : Data := .text kind.name

def FunctionOp.write : FunctionOp → Data
  | compare op => variant "Compare" op.write
  | and => .text "And"
  | or => .text "Or"
  | not => .text "Not"
  | arith op => variant "Arith" op.write
  | inRange range => variant "RangeSet" range.write
  | call name => variant "Call" (.text name)

def Cost.write (cost : Cost Float) : Data :=
  .object [("rows", .float cost.rows), ("time", .float cost.time)]

/-- A node of an expression or plan: its kind, what the kind holds, and its cost. -/
def Expr.writeNode (kind : String) (content : Data) (cost : Option (Cost Float)) : Data :=
  .object [("kind", variant kind content), ("cost", ofOption Cost.write cost)]

def Expr.writeFilter (kind child : Data) (cost : Option (Cost Float)) : Data :=
  writeNode "Filter" (.object [("kind", kind), ("child", child)]) cost

def Expr.writeJoin (kind : JoinKind) (left right on : Data) (hints : JoinHints)
    (cost : Option (Cost Float)) : Data :=
  writeNode "Join" (.object [("join_type", kind.write), ("left", left), ("right", right),
    ("filter", on), ("strategy", hints.write)]) cost

/-- The costs of the nodes of a tree by their places. A place is the way from the root, at every step the number
of a part. -/
abbrev Costs := List Nat → Option (Cost Float)

namespace Costs

def none : Costs := fun _ => .none

/-- The cost of the root alone. -/
def root (cost : Option (Cost Float)) : Costs
  | [] => cost
  | _ :: _ => .none

def part (costs : Costs) (i : Nat) : Costs := fun place => costs (i :: place)

/-- The costs of all parts but the first. -/
def rest (costs : Costs) : Costs
  | [] => .none
  | i :: place => costs ((i + 1) :: place)

end Costs

namespace Expr

mutual

/-- Writes a tree with costs, as the parts of a filter first its child and then what its kind holds. -/
def writeWith (costs : Costs) : Expr → Data
  | column c => writeNode "FetchVariable" c.write (costs [])
  | literal v => writeNode "FetchStatic" v.write (costs [])
  | table t => writeNode "FetchTable" t.write (costs [])
  | aliased name source =>
    writeNode "AliasTableName"
      (.object [("alias", name.write), ("source", writeWith (costs.part 0) source)]) (costs [])
  | apply op args =>
    writeNode "Function" (.object [("op", op.write), ("args", .list (writeList costs args))])
      (costs [])
  | filter kind child =>
    writeFilter (writeFilterKind costs.rest kind) (writeWith (costs.part 0) child) (costs [])
  | join kind left right on hints =>
    writeJoin kind (writeWith (costs.part 0) left) (writeWith (costs.part 1) right)
      (writeOption (costs.part 2) on) hints (costs [])

def writeList (costs : Costs) : List Expr → List Data
  | [] => []
  | e :: rest => writeWith (costs.part 0) e :: writeList costs.rest rest

def writeOption (costs : Costs) : Option Expr → Data
  | none => .null
  | some e => writeWith costs e

def writeFilterKind (costs : Costs) : FilterKind Expr → Data
  | .select predicate path =>
    variant "SingleFilter" (.object [("predicate", writeWith (costs.part 0) predicate),
      ("index", ofOption AccessPath.write path)])
  | .sort keys path =>
    variant "Sort"
      (.object [("order", .list (writeKeys costs keys)), ("index", ofOption AccessPath.write path)])
  | .guard predicate =>
    variant "StaticFilter" (.object [("predicate", writeWith (costs.part 0) predicate)])
  | .computed => .text "ExpressionTable"
  | .aggregate groupBy =>
    variant "Aggregate" (.object [("group_by", .list (writeList costs groupBy))])

def writeKeys (costs : Costs) : List (SortKey Expr) → List Data
  | [] => []
  | k :: rest => writeKey (costs.part 0) k :: writeKeys costs.rest rest

def writeKey (costs : Costs) : SortKey Expr → Data
  | ⟨e, ascending⟩ =>
    .object [("expr", writeWith costs e), ("ascending", .bool ascending)]

end

/-- The tree without costs. -/
def write (e : Expr) : Data := e.writeWith .none

end Expr

def SortKey.write (k : SortKey Expr) : Data := Expr.writeKey .none k

def OrderKey.write (k : OrderKey) : Data :=
  .object [("column", k.key.write), ("ascending", .bool k.ascending)]

def Plan.write : Plan Float → Data
  | leaf e cost => e.writeWith (.root cost)
  | filter kind child cost => Expr.writeFilter (Expr.writeFilterKind .none kind) child.write cost
  | join kind left right on hints cost =>
    Expr.writeJoin kind left.write right.write (Expr.writeOption .none on) hints cost

def IndexColumn.write (c : IndexColumn) : Data :=
  .object [("column", .text c.column), ("ascending", .bool c.ascending)]

def IndexDef.write (i : IndexDef) : Data :=
  .object [("name", .text i.name), ("collation", ofList IndexColumn.write i.collation)]

def Table.write (t : Table) : Data :=
  .object [("columns", ofList .text t.columns),
    ("rows", ofList (ofList Value.write) t.rows.toList),
    ("indexes", ofList IndexDef.write t.indexes)]

def ColumnProfile.write (p : ColumnProfile) : Data :=
  .object [("row_count", ofNat p.rowCount), ("sample_count", ofNat p.sampleCount),
    ("points", ofList Value.write p.points)]

def CostConfig.write (c : CostConfig Float) : Data :=
  .object [("index_lookup_cost", .float c.indexLookupCost), ("scan_factor", .float c.scanFactor),
    ("no_relation_penalty", .float c.noRelationPenalty),
    ("inequality_join_fraction", .float c.inequalityJoinFraction),
    ("equi_join_spread_divisor", .float c.equiJoinSpreadDivisor)]

def SearchConfig.write (c : SearchConfig) : Data :=
  .object [("seed_trials", ofNat c.seedTrials), ("min_beam", ofNat c.minBeam),
    ("max_beam", ofNat c.maxBeam), ("mess_fraction", .float c.messFraction),
    ("refine_tries_best", ofNat c.refineTriesBest), ("refine_tries_min", ofNat c.refineTriesMin),
    ("seed_change_chance", .float c.seedChangeChance.toFloat),
    ("max_refinement_steps", ofNat c.maxRefinementSteps),
    ("rng_seed", ofOption (fun s => ofNat s.toNat) c.rngSeed),
    ("sample_facts", .bool c.sampleFacts)]

def Query.write (q : Query) : Data :=
  .object [("join_graph", ofOption Expr.write q.graph), ("filter", ofOption Expr.write q.filter),
    ("order", ofList SortKey.write q.order)]

end JoinPlanner
