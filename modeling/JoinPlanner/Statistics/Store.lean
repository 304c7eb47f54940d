import JoinPlanner.Cost.Number
import JoinPlanner.Statistics.Column

/-!
# The statistics store

Column profiles and fact probabilities, each made when it is first wanted and kept from then on. A
fact's probability is the chance that a random pair of rows satisfies all its equalities; it may be
known to be unknown.
-/

namespace JoinPlanner

structure Statistics (κ : Type) where
  columns : List (ColumnRef × ColumnProfile) := []
  facts : List (FactKey × Option κ) := []
deriving Inhabited

/-- Actions on the store; what they have stored outlasts an error. -/
abbrev StatisticsM (κ : Type) := PlanM (Statistics κ)

instance {κ : Type} : MonadLift (Except CatalogError) (StatisticsM κ) :=
  ⟨fun r => ExceptT.mk (pure (r.mapError .catalog))⟩

open CostNumber (ofCount) in
/-- The chance that a random pair of rows satisfies every equality; unknown if a column is not
sampled or two columns have no point in common. -/
def factProbability {κ : Type} [CostNumber κ] (pairs : List (ColumnProfile × ColumnProfile)) :
    Option κ :=
  if pairs.isEmpty then none
  else pairs.foldlM (fun (probability : κ) (p, q) =>
    let common := p.matchingPoints q
    if p.isSampled && q.isSampled && common != 0 then
      some (probability * (ofCount common / ofCount (divisionPoints * divisionPoints)))
    else none) (ofCount 1)

namespace Statistics
variable {κ : Type}

def column (catalog : Catalog) (c : ColumnRef) : StatisticsM κ ColumnProfile := do
  match (← get).columns.lookup c with
  | some profile => return profile
  | none =>
    let profile ← ColumnProfile.sample catalog c
    modify fun s => { s with columns := (c, profile) :: s.columns }
    return profile

/-- The probability of a fact, if it was found and is known. -/
def fact? (s : Statistics κ) (key : FactKey) : Option κ := (s.facts.lookup key).join

def hasFact (s : Statistics κ) (key : FactKey) : Bool := (s.facts.lookup key).isSome

/-- Finds the probability of a fact over columns of base tables, unless it was found before. -/
def populateFact [CostNumber κ] (catalog : Catalog) (key : FactKey)
    (pairs : List (ColumnRef × ColumnRef)) : StatisticsM κ (Option κ) := do
  match (← get).facts.lookup key with
  | some known => return known
  | none =>
    let profiles ← pairs.mapM fun (l, r) => do return (← column catalog l, ← column catalog r)
    let probability := factProbability profiles
    modify fun s => { s with facts := (key, probability) :: s.facts }
    return probability

def putFact (s : Statistics κ) (key : FactKey) (probability : Option κ) : Statistics κ :=
  { s with facts := (key, probability) :: s.facts.filter fun entry => entry.1 != key }

end Statistics

end JoinPlanner
