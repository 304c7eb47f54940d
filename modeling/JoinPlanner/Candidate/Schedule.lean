import JoinPlanner.Error
import JoinPlanner.Graph
import JoinPlanner.Predicate.Basic
import JoinPlanner.Random.Draw

/-!
# Scheduling of predicates

A candidate plan grows from fragments, at first one for every relation, by applying one predicate
after the other. `Predicate.isReady` says when a predicate may be applied: all its relations are
there; the fragment that it makes lies within or apart from every right branch still to be joined;
an outer join finds its right branch in fragments of its own, with nothing pending inside; and any
other predicate waits for the outer joins into which it reaches.
-/

namespace JoinPlanner

/-- A partial plan and the relations that it covers. -/
structure Fragment where
  tables : TableSet
  tree : Expr
deriving Inhabited

namespace Fragment

def ofRelation (r : Relation) : Fragment := ⟨.singleton r.name, .relation r.name r.table⟩

def product (left right : Fragment) : Fragment :=
  ⟨left.tables ∪ right.tables, .join .cartesian left.tree right.tree none {}⟩

def isTouchedBy (f : Fragment) (p : Predicate) : Bool := !f.tables.isDisjoint p.tables

end Fragment

namespace Predicate

def covered (fragments : List Fragment) (p : Predicate) : TableSet :=
  .unions ((fragments.filter (·.isTouchedBy p)).map (·.tables))

/-- Whether an outer join may be performed, its right branch being `right`. -/
def isJoinReady (fragments : List Fragment) (p : Predicate) (right : TableSet)
    (others : List Predicate) : Bool :=
  let apart := fragments.all fun f => f.tables.isDisjoint right || f.tables.isSubset right
  let hasLeft := fragments.any fun f => f.isTouchedBy p && !f.tables.isSubset right
  let pendingInside := p.outerJoin.any fun id => others.any (·.inside.contains id)
  apart && hasLeft && !pendingInside

/-- Whether a predicate may be applied to the fragments while others are pending. -/
def isReady (fragments : List Fragment) (p : Predicate) (others : List Predicate) : Bool :=
  let covered := p.covered fragments
  let branches := others.filterMap rightTables
  p.tables.isSubset covered
    && (branches.all fun right => covered.isSubset right || covered.isDisjoint right)
    && match p.rightTables, p.waitsFor with
      | some right, _ => p.isJoinReady fragments right others
      | none, some reached => branches.all fun right => right.isDisjoint reached
      | none, none => true

/-- Every member of a list with all others, in order, after `before`. -/
def splitsAfter (before : List Predicate) : List Predicate → List (Predicate × List Predicate)
  | [] => []
  | p :: rest => (p, before ++ rest) :: splitsAfter (before ++ [p]) rest

/-- Every member of a list with all others, in order. -/
def splits (pending : List Predicate) : List (Predicate × List Predicate) := splitsAfter [] pending

variable {σ : Type} [RandomSource σ]

/-- The first choice among those ready for which a coin falls right, or else the first one ready. -/
def chooseReady (fragments : List Fragment) (fallback : Option (Predicate × List Predicate)) :
    List (Predicate × List Predicate) → Draw σ (Option (Predicate × List Predicate))
  | [] => return fallback
  | (p, others) :: rest => do
    if p.isReady fragments others then
      if ← Draw.coin then return some (p, others)
      else chooseReady fragments (fallback <|> some (p, others)) rest
    else chooseReady fragments fallback rest

end Predicate

end JoinPlanner
