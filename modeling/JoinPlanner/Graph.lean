import JoinPlanner.Error

/-!
# The join graph

Of a tree of joins only what limits the order of the joins is kept: the relations, the outer joins
with the tables on either side, and the conditions of the other joins. A right outer join is a left
one with its inputs swapped. Outer joins are numbered from the root down and listed from the leaves
up; `inside` names the outer joins in whose right branch something lies.
-/

namespace JoinPlanner

structure Relation where
  name : TableName
  table : TableName
deriving DecidableEq, Inhabited, Repr

structure OuterJoin where
  id : Nat
  left : TableSet
  right : TableSet
  on : Option Expr
  inside : SortedSet Nat
deriving Inhabited

/-- The condition of an inner or Cartesian join, over the relations below it. -/
structure JoinFilter where
  condition : Expr
  scope : TableSet
  inside : SortedSet Nat
deriving Inhabited

structure JoinGraph where
  relations : List Relation := []
  outerJoins : List OuterJoin := []
  filters : List JoinFilter := []
deriving Inhabited

namespace JoinGraph

def aliases (g : JoinGraph) : TableSet := .ofList (g.relations.map (·.name))

def baseTables (g : JoinGraph) : List (TableName × TableName) :=
  g.relations.map fun r => (r.name, r.table)

instance : Append JoinGraph where
  append g h := ⟨g.relations ++ h.relations, g.outerJoins ++ h.outerJoins, g.filters ++ h.filters⟩

def innerJoin (inside : SortedSet Nat) (g h : JoinGraph) (on : Option Expr) : JoinGraph :=
  let both := g ++ h
  let filter := on.toList.map fun condition => ⟨condition, both.aliases, inside⟩
  { both with filters := both.filters ++ filter }

/-- The graph of two inputs under the left outer join of a number. -/
def leftJoin (inside : SortedSet Nat) (id : Nat) (g h : JoinGraph) (on : Option Expr) :
    JoinGraph :=
  let both := g ++ h
  { both with outerJoins := both.outerJoins ++ [⟨id, g.aliases, h.aliases, on, inside⟩] }

/-- The graph of a tree inside given outer joins, numbering its own from `next`. -/
def ofTree (inside : SortedSet Nat) (next : Nat) : Expr → Except PlanError JoinGraph
  | .aliased name (.table base) => return { relations := [⟨name, base⟩] }
  | .aliased _ source => .error (.unexpectedNode source .aliasSource)
  | .join .cartesian left right on _ | .join .inner left right on _ => do
    let g ← ofTree inside next left
    let h ← ofTree inside (next + g.outerJoins.length) right
    return innerJoin inside g h on
  | .join .leftOuter left right on _ | .join .rightOuter right left on _ => do
    let g ← ofTree inside (next + 1) left
    let h ← ofTree (inside.insert next) (next + 1 + g.outerJoins.length) right
    return leftJoin inside next g h on
  | .join .fullOuter _ _ _ _ => .error (.unsupportedJoin .fullOuter .joinGraph)
  | e => .error (.unexpectedNode e .joinGraph)

/-- The first member of a list that is also an earlier one. -/
def firstRepeated (seen : TableSet) : List TableName → Option TableName
  | [] => none
  | t :: rest => if seen.contains t then some t else firstRepeated (seen.insert t) rest

/-- The graph of a query's tree of joins, whose aliases must be distinct; a query may have none. -/
def ofTree? (tree : Option Expr) : Except PlanError JoinGraph := do
  let graph ← match tree with
    | none => pure {}
    | some tree => ofTree ∅ 0 tree
  match firstRepeated ∅ (graph.relations.map (·.name)) with
  | some name => .error (.inconsistent (.repeatedAlias name))
  | none => return graph

end JoinGraph

end JoinPlanner
