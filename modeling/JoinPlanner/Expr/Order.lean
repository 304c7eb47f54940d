import JoinPlanner.Expr.Basic

/-!
# Row order

The natural order of an operator tree is the order in which its rows come without an added sort: an
index yields its collation, a join streams its left input, a sort yields its keys, and every other
filter keeps the order of its input.
-/

namespace JoinPlanner

abbrev OrderKey := SortKey ColumnRef

namespace Expr

def leadingColumns : List (SortKey Expr) → List OrderKey
  | ⟨column c, ascending⟩ :: rest => ⟨c, ascending⟩ :: leadingColumns rest
  | _ => []

def naturalOrder : Expr → List OrderKey
  | join _ left _ _ _ => left.naturalOrder
  | filter (.select _ (some path)) _ => path.columns.map fun c => ⟨⟨path.relation, c⟩, true⟩
  | filter (.sort keys _) _ => leadingColumns keys
  | filter _ child => child.naturalOrder
  | _ => []

end Expr

/-- Whether rows in the order `provided` are in the order `required`. -/
def OrderKey.satisfies : (provided : List OrderKey) → (required : List (SortKey Expr)) → Bool
  | _, [] => true
  | [], _ :: _ => false
  | p :: provided, r :: required =>
    r.ascending == p.ascending && r.key.column? == some p.key && satisfies provided required

/-- The alias to which every sort key refers, if there is one. -/
def SortKey.commonAlias? (keys : List (SortKey Expr)) : Option TableName := do
  let first ← keys.head?
  let c ← first.key.column?
  if keys.all fun k => (k.key.column?.map (·.table)) == some c.table then some c.table else none

end JoinPlanner
