import JoinPlanner.SortedSet

/-!
# Names of tables and columns

A table is named by an optional schema and a name, a column by its table and its own name. Both are
ordered field by field, a name without schema before every name with one.
-/

namespace JoinPlanner

/-- The name of a table, or the alias under which a query reads it. -/
structure TableName where
  schema : Option String
  name : String
deriving DecidableEq, Inhabited, Repr

namespace TableName

instance : Ord TableName := ⟨compareLex (compareOn schema) (compareOn name)⟩

instance : Std.TransOrd TableName :=
  inferInstanceAs (Std.TransCmp (compareLex (compareOn schema) (compareOn name)))

instance : Std.LawfulEqOrd TableName where
  eq_of_compare {a b} h := by
    obtain ⟨hs, hn⟩ := Ordering.then_eq_eq.1
      (h : (compare a.schema b.schema).then (compare a.name b.name) = .eq)
    cases a; cases b
    exact congr (congrArg mk (Std.LawfulEqCmp.eq_of_compare hs)) (Std.LawfulEqCmp.eq_of_compare hn)

def render (t : TableName) : String :=
  match t.schema with
  | some schema => schema ++ "." ++ t.name
  | none => t.name

end TableName

structure ColumnRef where
  table : TableName
  column : String
deriving DecidableEq, Inhabited, Repr

namespace ColumnRef

instance : Ord ColumnRef := ⟨compareLex (compareOn table) (compareOn column)⟩

instance : Std.TransOrd ColumnRef :=
  inferInstanceAs (Std.TransCmp (compareLex (compareOn table) (compareOn column)))

instance : Std.LawfulEqOrd ColumnRef where
  eq_of_compare {a b} h := by
    obtain ⟨ht, hc⟩ := Ordering.then_eq_eq.1
      (h : (compare a.table b.table).then (compare a.column b.column) = .eq)
    cases a; cases b
    exact congr (congrArg mk (Std.LawfulEqCmp.eq_of_compare ht)) (Std.LawfulEqCmp.eq_of_compare hc)

def render (c : ColumnRef) : String := c.table.render ++ "." ++ c.column

end ColumnRef

/-- The tables of a query, or those that a part of it reads. -/
abbrev TableSet := SortedSet TableName

end JoinPlanner
