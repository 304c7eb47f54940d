import JoinPlanner.Expr.Basic

/-!
# Simple relations

A join condition is simple when it is one comparison, or several equalities, each between an
expression over the left input and one over the right. The operands are then listed with the left
ones first.
-/

namespace JoinPlanner

/-- Comparisons of left operands with right ones under one operator. -/
structure SimpleRelation where
  op : Comparison
  operands : List (Expr × Expr)

namespace SimpleRelation

/-- Whether an expression reads something, all of it from the given tables. -/
def readsOnly (e : Expr) (tables : TableSet) : Bool :=
  let read := e.tables
  !read.isEmpty && read.isSubset tables

/-- A comparison between the two sides, the left operand first. -/
def orient? (left right : TableSet) (e : Expr) : Option (Comparison × Expr × Expr) :=
  match e.comparison? with
  | some (op, a, b) =>
    if readsOnly a left && readsOnly b right then some (op, a, b)
    else if readsOnly a right && readsOnly b left then some (op.swap, b, a)
    else none
  | none => none

def equality? (left right : TableSet) (e : Expr) : Option (Expr × Expr) :=
  match orient? left right e with
  | some (.eq, operands) => some operands
  | _ => none

def detect (condition : Expr) (left right : TableSet) : Option SimpleRelation :=
  match condition.conjuncts with
  | [] => none
  | [e] => (orient? left right e).map fun (op, operands) => ⟨op, [operands]⟩
  | terms => (terms.mapM (equality? left right)).map fun operands => ⟨.eq, operands⟩

end SimpleRelation

end JoinPlanner
