import JoinPlanner.Fact
import JoinPlanner.Range.Basic

/-!
# Expressions and operator trees

One tree type serves for the predicates of a query, for its graph of joins and for the plans made
of it. `Expr.children` are the parts that a walk visits; the predicate of a filter belongs to the
filter and is not among them.
-/

namespace JoinPlanner

/-- An index through which an alias may be read. -/
structure AccessPath where
  /-- The base table that owns the index. -/
  table : TableName
  /-- The alias under which the query reads the table. -/
  relation : TableName
  index : String
  columns : List String
  /-- The keys to probe, if the predicate amounts to a range. -/
  range : Option KeyRange
deriving BEq, Inhabited, Repr

structure SortKey (α : Type) where
  key : α
  ascending : Bool
deriving BEq, DecidableEq, Inhabited, Repr

/-- How a join may be executed. -/
structure JoinHints where
  leftPath : Option AccessPath := none
  /-- The index probed once for every left row. -/
  rightPath : Option AccessPath := none
  fact : Option FactKey := none
deriving BEq, Inhabited, Repr

inductive FunctionOp
  | compare (op : Comparison)
  | and
  | or
  | not
  | arith (op : Arithmetic)
  /-- The argument, a column, has a value in the range. -/
  | inRange (range : KeyRange)
  /-- Any other function, known by its name only. -/
  | call (name : String)
deriving BEq, Inhabited, Repr

/-- What a filter node does to the rows of its input. -/
inductive FilterKind (ε : Type)
  /-- Keeps the rows that satisfy a predicate, through an index if there is a path. -/
  | select (predicate : ε) (path : Option AccessPath)
  | sort (keys : List (SortKey ε)) (path : Option AccessPath)
  /-- Keeps all rows or none, by a predicate that reads no table. -/
  | guard (predicate : ε)
  /-- Marks a relation of computed rows. -/
  | computed
  | aggregate (groupBy : List ε)
deriving Inhabited

inductive Expr
  | column (ref : ColumnRef)
  | literal (value : Value)
  | table (name : TableName)
  | aliased (name : TableName) (source : Expr)
  | apply (op : FunctionOp) (args : List Expr)
  | filter (kind : FilterKind Expr) (child : Expr)
  | join (kind : JoinKind) (left right : Expr) (on : Option Expr) (hints : JoinHints)
deriving Inhabited

namespace Expr

def relation (name base : TableName) : Expr := aliased name (table base)

def bool (b : Bool) : Expr := literal (.bool b)

def compare (op : Comparison) (left right : Expr) : Expr := apply (.compare op) [left, right]

def equals (left right : Expr) : Expr := compare .eq left right

def not (e : Expr) : Expr := apply .not [e]

def inRange (c : ColumnRef) (range : KeyRange) : Expr := apply (.inRange range) [column c]

/-- The conjunction of a list; a single term stands for itself. -/
def conjunction : List Expr → Expr
  | [e] => e
  | terms => apply .and terms

def disjunction : List Expr → Expr
  | [e] => e
  | terms => apply .or terms

/-- The kind of a node, as errors and listings name it. -/
def kindName : Expr → String
  | column _ => "FetchVariable"
  | literal _ => "FetchStatic"
  | table _ => "FetchTable"
  | aliased _ _ => "AliasTableName"
  | apply _ _ => "Function"
  | filter _ _ => "Filter"
  | join _ _ _ _ _ => "Join"

def children : Expr → List Expr
  | column _ | literal _ | table _ => []
  | aliased _ source => [source]
  | apply _ args => args
  | filter _ child => [child]
  | join _ left right on _ => left :: right :: on.toList

def column? : Expr → Option ColumnRef
  | column c => some c
  | _ => none

def literal? : Expr → Option Value
  | literal v => some v
  | _ => none

/-- The alias of a node that is nothing but an alias. -/
def aliasName? : Expr → Option TableName
  | aliased name _ => some name
  | _ => none

def comparison? : Expr → Option (Comparison × Expr × Expr)
  | apply (.compare op) [left, right] => some (op, left, right)
  | _ => none

def rangeTerm? : Expr → Option (ColumnRef × KeyRange)
  | apply (.inRange range) (column c :: _) => some (c, range)
  | _ => none

def isTrueLiteral : Expr → Bool
  | literal v => v.isTrue
  | _ => false

mutual

def columns : Expr → List ColumnRef
  | column c => [c]
  | literal _ | table _ => []
  | aliased _ source => source.columns
  | apply _ args => columnsOfList args
  | filter _ child => child.columns
  | join _ left right on _ => left.columns ++ right.columns ++ columnsOfOption on

def columnsOfList : List Expr → List ColumnRef
  | [] => []
  | e :: rest => e.columns ++ columnsOfList rest

def columnsOfOption : Option Expr → List ColumnRef
  | none => []
  | some e => e.columns

end

def tables (e : Expr) : TableSet := .ofList (e.columns.map (·.table))

def relations : Expr → TableSet
  | aliased name _ => .singleton name
  | join _ left right _ _ => left.relations ∪ right.relations
  | filter _ child => child.relations
  | _ => ∅

mutual

/-- Whether an expression reads no column and no table. -/
def isStatic : Expr → Bool
  | column _ | table _ | aliased _ _ => false
  | literal _ => true
  | apply _ args => isStaticList args
  | filter _ child => child.isStatic
  | join _ left right on _ => left.isStatic && right.isStatic && isStaticOption on

def isStaticList : List Expr → Bool
  | [] => true
  | e :: rest => e.isStatic && isStaticList rest

def isStaticOption : Option Expr → Bool
  | none => true
  | some e => e.isStatic

end

mutual

/-- The terms of a conjunction, those of nested conjunctions in their place. -/
def conjuncts : Expr → List Expr
  | apply .and args => conjunctsOfList args
  | e => [e]

def conjunctsOfList : List Expr → List Expr
  | [] => []
  | e :: rest => e.conjuncts ++ conjunctsOfList rest

end

end Expr

end JoinPlanner
