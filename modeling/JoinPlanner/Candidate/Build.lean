import JoinPlanner.Candidate.Schedule
import JoinPlanner.Expr.Order

/-!
# Candidate plans

`Problem.build` makes the operator tree of an order of the predicates and a seed. It applies the
predicates one after the other, joins what is left by Cartesian joins at random, puts the constant
predicates on top, and last a sort if the rows are not in the requested order already.
-/

namespace JoinPlanner

structure Problem where
  relations : List Relation := []
  predicates : List Predicate := []
  /-- The predicates that need no relation. -/
  statics : List Expr := []
  order : List (SortKey Expr) := []
  /-- An index that delivers the order if its relation is scanned first. -/
  sortPath : Option AccessPath := none
deriving Inhabited

abbrev BuildM (σ : Type) := StateT σ (Except PlanError)

namespace Predicate

/-- The index for the predicate's join on a fragment that is a bare relation. -/
def joinPath (p : Predicate) (f : Fragment) : Option AccessPath :=
  f.tree.aliasName?.bind fun name =>
    p.paths.find? fun path => path.relation = name && path.range.isNone

/-- The indexes for the predicate as a filter of a fragment that is a bare relation. -/
def filterPaths (p : Predicate) (f : Fragment) : List AccessPath :=
  match f.tree.aliasName? with
  | some name => p.paths.filter fun path => path.relation = name && path.range.isSome
  | none => []

def join (p : Predicate) (kind : JoinKind) (left right : Fragment) : Fragment :=
  let on := if p.condition.isTrueLiteral then none else some p.condition
  let hints : JoinHints := ⟨p.joinPath left, p.joinPath right, p.fact⟩
  ⟨left.tables ∪ right.tables, .join kind left.tree right.tree on hints⟩

variable {σ : Type} [RandomSource σ]

/-- The Cartesian joins of fragments in a random order, from the left. -/
def chain (p : Predicate) (parts : List Fragment) : BuildM σ Fragment := do
  match ← draw (Draw.shuffle parts) with
  | [] => throw (.inconsistent (.lostInput p.condition))
  | first :: rest => return rest.foldl Fragment.product first

def fuse (p : Predicate) (touched : List Fragment) : BuildM σ Fragment := do
  match p.rightTables, touched with
  | some right, _ =>
    let (rightParts, leftParts) := touched.partition fun f => f.tables.isSubset right
    let left ← p.chain leftParts
    let right ← p.chain rightParts
    return p.join .leftOuter left right
  | none, [] => throw (.unschedulable p.condition .noRelation)
  | none, [f] =>
    let path ← draw (Draw.choose? (p.filterPaths f))
    return { f with tree := .filter (.select p.condition path) f.tree }
  | none, _ =>
    match ← draw (Draw.shuffle touched) with
    | first :: second :: rest =>
      return p.join p.joinKind (rest.foldl Fragment.product first) second
    | _ => throw (.inconsistent (.lostInput p.condition))

/-- The fragments after the predicate, the one that it makes at the end. -/
def applyTo (p : Predicate) (fragments : List Fragment) : BuildM σ (List Fragment) := do
  let (touched, untouched) := fragments.partition (·.isTouchedBy p)
  return untouched ++ [← p.fuse touched]

/-- Applies `n` of the pending predicates, each time one that is ready. -/
def applyPending : (n : Nat) → List Predicate → List Fragment → BuildM σ (List Fragment)
  | 0, _, fragments => return fragments
  | _ + 1, [], fragments => return fragments
  | n + 1, p :: rest, fragments => do
    match ← draw (chooseReady fragments none (splits (p :: rest))) with
    | some (chosen, others) => applyPending n others (← chosen.applyTo fragments)
    | none =>
      throw (.unschedulable p.condition
        (.noneReady (rest.length + 1) (fragments.map (·.tables))))

end Predicate

namespace Fragment
variable {σ : Type} [RandomSource σ]

/-- An entry of an array, and the array with its last entry moved into that place. -/
def takeAt (fragments : Array Fragment) (i : Nat) : Fragment × Array Fragment :=
  ((fragments[i]?).getD default, (fragments.swapIfInBounds i (fragments.size - 1)).pop)

/-- Joins two fragments at random, `n` times. -/
def pairOff : (n : Nat) → Array Fragment → Draw σ (Array Fragment)
  | 0, fragments => return fragments
  | n + 1, fragments => do
    let (a, fragments) := takeAt fragments (← Draw.longBelow fragments.size)
    let (b, fragments) := takeAt fragments (← Draw.longBelow fragments.size)
    pairOff n (fragments.push (a.product b))

end Fragment

/-- The alias that a plan scans first, if it reads it without an index. -/
def Expr.firstScan : Expr → Option TableName
  | .aliased name _ => some name
  | .join _ left _ _ _ => left.firstScan
  | .filter (.select _ (some _)) _ => none
  | .filter _ child => child.firstScan
  | _ => none

def Expr.singleRow : Expr := .filter .computed (.apply (.call "single_row") [])

namespace Problem

/-- The predicates of an order, which must name each at most once. -/
def select (problem : Problem) (order : List Nat) : Except PlanError (List Predicate) :=
  if order.Nodup ∧ ∀ i ∈ order, i < problem.predicates.length then
    .ok (order.filterMap fun i => problem.predicates[i]?)
  else .error (.inconsistent (.notASelection order problem.predicates.length))

def withStatics (problem : Problem) (tree : Expr) : Expr :=
  if problem.statics.isEmpty then tree
  else .filter (.guard (.conjunction problem.statics)) tree

/-- The tree with a sort on top, unless its rows are in the requested order. -/
def withOrder (problem : Problem) (tree : Expr) : Expr :=
  if problem.order.isEmpty || OrderKey.satisfies tree.naturalOrder problem.order then tree
  else
    let path := problem.sortPath.filter fun path => tree.firstScan = some path.relation
    .filter (.sort problem.order path) tree

variable {σ : Type} [RandomSource σ]

def buildTree (problem : Problem) (predicates : List Predicate) : BuildM σ Expr := do
  let fragments := problem.relations.map Fragment.ofRelation
  let fragments ← Predicate.applyPending predicates.length predicates fragments
  let fragments ← draw (Fragment.pairOff (fragments.length - 1) fragments.toArray)
  return (fragments.back?.map (·.tree)).getD .singleRow

def build (problem : Problem) (order : List Nat) (source : σ) : Except PlanError Expr := do
  let predicates ← problem.select order
  let (tree, _) ← (problem.buildTree predicates).run source
  return problem.withOrder (problem.withStatics tree)

end Problem

end JoinPlanner
