/-!
# Operators

The comparisons, the arithmetic operators and the kinds of join of a query, with the law of a
swapped comparison, `Comparison.holds_swap`.
-/

namespace JoinPlanner

/-- A comparison; `is` and `isNot` take NULL as an ordinary value. -/
inductive Comparison
  | eq
  | ne
  | is
  | isNot
  | lt
  | le
  | gt
  | ge
deriving DecidableEq, Inhabited, Repr

namespace Comparison

def all : List Comparison := [eq, ne, is, isNot, lt, le, gt, ge]

/-- The comparison that holds of two operands exactly when this one holds of them swapped. -/
def swap : Comparison → Comparison
  | lt => gt
  | le => ge
  | gt => lt
  | ge => le
  | op => op

def isEquality : Comparison → Bool
  | eq | is => true
  | _ => false

def seesNull : Comparison → Bool
  | is | isNot => true
  | _ => false

def holds (op : Comparison) (ord : Ordering) : Bool :=
  match op with
  | eq | is => ord == .eq
  | ne | isNot => ord != .eq
  | lt => ord == .lt
  | le => ord != .gt
  | gt => ord == .gt
  | ge => ord != .lt

@[simp] theorem swap_swap (op : Comparison) : op.swap.swap = op := by cases op <;> rfl

theorem holds_swap (op : Comparison) (ord : Ordering) : op.swap.holds ord.swap = op.holds ord := by
  cases op <;> cases ord <;> rfl

/-- A comparison asks for equality, or does not see NULL, or is `isNot`. -/
theorem isEquality_or (op : Comparison) :
    op.isEquality = true ∨ (op.isEquality = false ∧ op.seesNull = false) ∨ op = .isNot := by
  cases op <;> decide

def symbol : Comparison → String
  | eq => "="
  | ne => "<>"
  | is => "IS"
  | isNot => "IS NOT"
  | lt => "<"
  | le => "<="
  | gt => ">"
  | ge => ">="

/-- The name that stands for the comparison in data and in an operator listing. -/
def name : Comparison → String
  | eq => "Eq"
  | ne => "NotEq"
  | is => "Is"
  | isNot => "IsNot"
  | lt => "Lt"
  | le => "LtEq"
  | gt => "Gt"
  | ge => "GtEq"

end Comparison

inductive Arithmetic
  | add
  | sub
  | mul
  | div
deriving DecidableEq, Inhabited, Repr

namespace Arithmetic

def all : List Arithmetic := [add, sub, mul, div]

def symbol : Arithmetic → String
  | add => "+"
  | sub => "-"
  | mul => "*"
  | div => "/"

def name : Arithmetic → String
  | add => "Add"
  | sub => "Sub"
  | mul => "Mul"
  | div => "Div"

end Arithmetic

/-- The kinds of join. Plans hold the first three; a right outer join is read as a left one with its
inputs swapped, and a full outer join is refused. -/
inductive JoinKind
  | cartesian
  | inner
  | leftOuter
  | rightOuter
  | fullOuter
deriving DecidableEq, Inhabited, Repr

namespace JoinKind

def all : List JoinKind := [cartesian, inner, leftOuter, rightOuter, fullOuter]

def name : JoinKind → String
  | cartesian => "Cartesian"
  | inner => "Inner"
  | leftOuter => "OuterLeft"
  | rightOuter => "OuterRight"
  | fullOuter => "FullOuter"

end JoinKind

end JoinPlanner
