import JoinPlanner.Cost.Number

/-!
# The beam

The search keeps candidates only as a seed and an order of the predicates, from which the plan is
built again. The beam is a list of candidates in ascending order of cost and seed, without infinite
costs and without two entries of one seed that share a cost or an order.
-/

namespace JoinPlanner

/-- A candidate plan: what it is built from, and its cost. -/
structure Candidate (κ : Type) where
  seed : UInt64
  order : List Nat
  cost : κ
deriving Inhabited

structure SearchStats where
  trials : Nat := 0
  refinements : Nat := 0
  improvements : Nat := 0
  beamCapacity : Nat := 0
deriving DecidableEq, Inhabited, Repr

namespace Candidate
variable {κ : Type} [CostNumber κ]

protected def compare (a b : Candidate κ) : Ordering :=
  (CostNumber.order a.cost b.cost).then (Ord.compare a.seed b.seed)

/-- Whether two candidates of one seed share their cost or their order. -/
def isDuplicate (a b : Candidate κ) : Bool :=
  a.seed == b.seed && ((CostNumber.le a.cost b.cost && CostNumber.le b.cost a.cost)
    || a.order == b.order)

/-- The beam with a candidate in its place, and the place; none if the candidate has no finite cost
or is there already. -/
def insertInto (c : Candidate κ) (beam : List (Candidate κ)) :
    Option (Nat × List (Candidate κ)) :=
  if !CostNumber.isFinite c.cost || beam.any (·.isDuplicate c) then none
  else
    let before := beam.takeWhile fun b => b.compare c == .lt
    some (before.length, before ++ c :: beam.drop before.length)

end Candidate

end JoinPlanner
