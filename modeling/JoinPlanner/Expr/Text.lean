import JoinPlanner.Expr.Basic

/-!
# The text of an expression
-/

namespace JoinPlanner

def AccessPath.render (p : AccessPath) : String :=
  p.table.render ++ "." ++ p.index ++ "(" ++ ", ".intercalate p.columns ++ ")"

/-- The name of an operator in the listing of an application that has no infix form. -/
def FunctionOp.name : FunctionOp → String
  | .compare op => "Compare(" ++ op.name ++ ")"
  | .and => "And"
  | .or => "Or"
  | .not => "Not"
  | .arith op => "Arith(" ++ op.name ++ ")"
  | .inRange _ => "range_set"
  | .call name => name

def FunctionOp.renderWith (op : FunctionOp) (args : List String) : String :=
  match op, args with
  | .compare op, [l, r] => l ++ " " ++ op.symbol ++ " " ++ r
  | .arith op, [l, r] => "(" ++ l ++ " " ++ op.symbol ++ " " ++ r ++ ")"
  | .and, _ => "(" ++ " AND ".intercalate args ++ ")"
  | .or, _ => "(" ++ " OR ".intercalate args ++ ")"
  | .not, [arg] => "NOT " ++ arg
  | .inRange range, _ => "range_set(" ++ ", ".intercalate args ++ ", " ++ range.render ++ ")"
  | op, _ => op.name ++ "(" ++ ", ".intercalate args ++ ")"

def FilterKind.name {ε : Type} : FilterKind ε → String
  | select _ _ => "single_filter"
  | sort _ _ => "sort"
  | guard _ => "static_filter"
  | computed => "expression_table"
  | aggregate _ => "aggregate"

namespace Expr

mutual

def render : Expr → String
  | column c => c.render
  | literal v => v.render
  | table t => "table(" ++ t.render ++ ")"
  | aliased name source => source.render ++ " AS " ++ name.render
  | apply op args => op.renderWith (renderList args)
  | filter kind child => kind.name ++ "(" ++ child.render ++ ")"
  | join kind left right _ _ =>
    "join[" ++ kind.name ++ "](" ++ left.render ++ ", " ++ right.render ++ ")"

def renderList : List Expr → List String
  | [] => []
  | e :: rest => e.render :: renderList rest

end

end Expr

end JoinPlanner
