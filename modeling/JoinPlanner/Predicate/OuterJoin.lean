import JoinPlanner.Expr.Simplify
import JoinPlanner.Graph
import JoinPlanner.Predicate.Basic

/-!
# Predicates of outer joins

Every outer join becomes one exclusive predicate, which performs it. A conjunct of its condition
that reads relations, but none of the right branch, is hoisted among the other predicates; all other
conjuncts stay with the join. A predicate that reaches into a right branch from outside waits for
the join.
-/

namespace JoinPlanner

namespace OuterJoin

def terms (j : OuterJoin) : List Expr :=
  match j.on with
  | some condition => Predicate.termsOf condition.simplify
  | none => []

/-- Whether a conjunct of the condition may be applied apart from the join. -/
def hoists (j : OuterJoin) (term : Expr) : Bool :=
  !term.tables.isEmpty && term.tables.isDisjoint j.right

def hoisted (j : OuterJoin) : List Expr := j.terms.filter j.hoists

def attached (j : OuterJoin) : List Expr := j.terms.filter (!j.hoists ·)

/-- The condition of the join without the hoisted conjuncts. -/
def condition (j : OuterJoin) : Expr :=
  if j.attached.isEmpty then .bool true else .conjunction j.attached

/-- The relations that the join needs: all that its condition reads, its right branch, and one of
the left at least. -/
def neededTables (j : OuterJoin) : TableSet :=
  let tables := j.condition.tables ∪ j.right
  match j.left.toList.head? with
  | some anchor => if tables.isDisjoint j.left then tables.insert anchor else tables
  | none => tables

def toPredicate (j : OuterJoin) : Predicate where
  condition := j.condition
  tables := j.neededTables
  waitsFor := some j.right
  exclusive := true
  joinKind := .leftOuter
  outerJoin := some j.id
  inside := j.inside

def addTo (j : OuterJoin) (pool : List Predicate) : List Predicate :=
  j.toPredicate.addTo
    (j.hoisted.foldl (fun pool term => Predicate.addFilter term j.inside pool) pool)

end OuterJoin

namespace Predicate

/-- The right branches into which a predicate reaches from outside, together. -/
def reachedTables (joins : List OuterJoin) (p : Predicate) : TableSet :=
  .unions <| (joins.filter fun j => !p.inside.contains j.id && !p.tables.isDisjoint j.right).map
    (·.right)

def waiting (joins : List OuterJoin) (p : Predicate) : Predicate :=
  if p.exclusive then p
  else
    let reached := p.reachedTables joins
    { p with waitsFor := if reached.isEmpty then none else some reached }

/-- Adds the predicates of the outer joins, after which every predicate waits for those that it
reaches into. -/
def propagate (joins : List OuterJoin) (pool : List Predicate) : List Predicate :=
  (joins.foldl (fun pool j => j.addTo pool) pool).map (waiting joins)

end Predicate

end JoinPlanner
