import JoinPlanner.Expr.Basic

/-!
# Evaluation

`Expr.evalIn` gives the three-valued result of an expression under a valuation of its columns and of
the functions known by name only. `Expr.eval` is its instance for expressions that read no data.
-/

namespace JoinPlanner

/-- The values of columns and of functions known by name only, as far as they are known. -/
structure Valuation where
  column : ColumnRef → Option Value
  call : String → List Value → Option Value

namespace Valuation

def unknown : Valuation := ⟨fun _ => none, fun _ _ => none⟩

end Valuation

/-- The value of an operator at known arguments. A range term is about a column and not about a
value. -/
def FunctionOp.evaluate (call : String → List Value → Option Value) :
    FunctionOp → List Value → Option Value
  | .compare op, [a, b] => some (Value.compareWith op a b)
  | .arith op, [a, b] => some (Value.arith op a b)
  | .and, values => some (Value.conjunction values)
  | .or, values => some (Value.disjunction values)
  | .not, [a] => some a.negation
  | .call name, values => call name values
  | _, _ => none

namespace Expr

def columnArgument? : List Expr → Option ColumnRef
  | column c :: _ => some c
  | _ => none

mutual

/-- The value of an expression, if it is one that has a value and all it reads is known. -/
def evalIn (v : Valuation) : Expr → Option Value
  | column c => v.column c
  | literal x => some x
  | apply (.inRange range) args => (columnArgument? args).bind v.column |>.map fun x =>
      .bool (range.contains [x])
  | apply op args => (evalList v args).bind (op.evaluate v.call)
  | _ => none

def evalList (v : Valuation) : List Expr → Option (List Value)
  | [] => some []
  | e :: rest => do return (← e.evalIn v) :: (← evalList v rest)

end

def eval (e : Expr) : Option Value := e.evalIn .unknown

end Expr

end JoinPlanner
