import JoinPlanner.Expr.Basic

/-!
# Predicates

A filter is split at its conjunctions into predicates, each with the relations that it needs. The
predicates of a query are a list; adding one merges it into the first with which it may share a node
of the plan: both simple equalities over the same relations, under the same outer joins.
-/

namespace JoinPlanner

/-- Whether every conjunct equates two columns, or a column with one value. -/
def Expr.isSimpleEquality (e : Expr) : Bool :=
  e.conjuncts.all fun
    | .apply (.compare .eq) [.column _, .column _] => true
    | .apply (.inRange range) (.column _ :: _) => range.point?.isSome
    | _ => false

/-- The two columns of every conjunct that equates columns of different tables. -/
def Expr.columnPairs (e : Expr) : List (ColumnRef × ColumnRef) :=
  e.conjuncts.filterMap fun
    | .apply (.compare .eq) [.column l, .column r] =>
      if l.table = r.table then none else some (l, r)
    | _ => none

/-- A part of the filter of a query that is applied at one node of the plan. -/
structure Predicate where
  condition : Expr
  tables : TableSet
  /-- Of an outer join, the relations of its right branch; of any other predicate, those of the
  right branches into which it reaches from outside, so that it waits for these joins. -/
  waitsFor : Option TableSet := none
  /-- Whether the predicate performs an outer join, with its right branch as one input. -/
  exclusive : Bool := false
  joinKind : JoinKind := .inner
  outerJoin : Option Nat := none
  /-- The outer joins in whose right branch the predicate lies. -/
  inside : SortedSet Nat
  paths : List AccessPath := []
  fact : Option FactKey := none
deriving Inhabited

namespace Predicate

def ofCondition (condition : Expr) (inside : SortedSet Nat) : Predicate :=
  { condition, tables := condition.tables, inside }

/-- Whether the predicate is a constant that may be evaluated above the whole plan. -/
def isStatic (p : Predicate) : Bool := p.tables.isEmpty && !p.exclusive && p.inside.isEmpty

/-- The right branch of the outer join that the predicate performs. -/
def rightTables (p : Predicate) : Option TableSet := if p.exclusive then p.waitsFor else none

def canMerge (p q : Predicate) : Bool :=
  !p.exclusive && !q.exclusive && !p.tables.isEmpty && p.tables = q.tables && p.inside = q.inside
    && p.waitsFor = q.waitsFor && p.condition.isSimpleEquality && q.condition.isSimpleEquality

/-- The first predicate with the conjuncts of the second added to its own. -/
def merge (p q : Predicate) : Predicate :=
  { p with condition := .conjunction (p.condition.conjuncts ++ q.condition.conjuncts) }

/-- Adds a predicate to a list, merged into the first that allows it. -/
def addTo (p : Predicate) : List Predicate → List Predicate
  | [] => [p]
  | q :: rest => if q.canMerge p then q.merge p :: rest else q :: p.addTo rest

def termsOf (filter : Expr) : List Expr := filter.conjuncts.filter (!·.isTrueLiteral)

def addFilter (filter : Expr) (inside : SortedSet Nat) (pool : List Predicate) : List Predicate :=
  (termsOf filter).foldl (fun pool term => (ofCondition term inside).addTo pool) pool

/-- A conjunct of a join condition over `scope`. In the right branch of an outer join a constant
needs the relations of the scope, so that it is applied in the branch and not above the join. -/
def ofScopedCondition (term : Expr) (inside : SortedSet Nat) (scope : TableSet) : Predicate :=
  let p := ofCondition term inside
  if p.tables.isEmpty && !inside.isEmpty then { p with tables := scope } else p

def addScopedFilter (filter : Expr) (inside : SortedSet Nat) (scope : TableSet)
    (pool : List Predicate) : List Predicate :=
  (termsOf filter).foldl (fun pool term => (ofScopedCondition term inside scope).addTo pool) pool

end Predicate

end JoinPlanner
