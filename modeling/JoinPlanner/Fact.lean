import JoinPlanner.Name

/-!
# Facts

A fact is a set of equalities between columns, such as those of a join condition. Its key is one
text for every way to write the set: each equality has its lesser column first, and the equalities
are sorted, each once.
-/

namespace JoinPlanner

/-- The canonical text of a set of column equalities. -/
structure FactKey where
  text : String
deriving DecidableEq, Inhabited, Repr

namespace FactKey

/-- An equality with its lesser column first. -/
def equality (left right : ColumnRef) : String :=
  if compare left right != .gt then left.render ++ "=" ++ right.render
  else right.render ++ "=" ++ left.render

def ofEqualities (pairs : List (ColumnRef × ColumnRef)) : FactKey :=
  ⟨" AND ".intercalate (SortedSet.ofList (pairs.map fun (l, r) => equality l r)).toList⟩

end FactKey

end JoinPlanner
