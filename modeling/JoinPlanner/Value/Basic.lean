import JoinPlanner.Decimal.Binary
import JoinPlanner.Operator

/-!
# Scalar values

The constants of predicates, of range bounds and of column samples. Two orders live here. The total
order (`Ord Value`) puts NULL first, compares numbers by their exact values whether whole or
floating, and orders all else by class; equality of values (`==`) is its equality. The SQL
comparison (`Value.sqlCompare`) is unknown when an operand is NULL or the classes differ.
-/

namespace JoinPlanner

/-- A scalar value; a date counts days. -/
inductive Value
  | null
  | bool (value : Bool)
  | int (value : Int64)
  | float (value : Float)
  | text (value : String)
  | date (day : Int32)
deriving Inhabited, Repr

/-- The class of a value: only values of one class compare as ordinary values. -/
inductive ValueClass
  | null
  | bool
  | numeric
  | text
  | date
deriving DecidableEq, Inhabited, Repr

namespace ValueClass

def all : List ValueClass := [null, bool, numeric, text, date]

def rank : ValueClass → Nat
  | null => 0
  | bool => 1
  | numeric => 2
  | text => 3
  | date => 4

instance : Ord ValueClass := ⟨compareOn rank⟩

instance : Std.TransOrd ValueClass := inferInstanceAs (Std.TransCmp (compareOn rank))

instance : Std.LawfulEqOrd ValueClass where
  eq_of_compare {a b} h := by
    have h : compare a.rank b.rank = .eq := h
    have h := Std.LawfulEqCmp.eq_of_compare h
    cases a <;> cases b <;> simp_all [rank]

def name : ValueClass → String
  | null => "Null"
  | bool => "Bool"
  | numeric => "Numeric"
  | text => "Text"
  | date => "Date"

end ValueClass

namespace Value

def valueClass : Value → ValueClass
  | null => .null
  | bool _ => .bool
  | int _ | float _ => .numeric
  | text _ => .text
  | date _ => .date

def isNull : Value → Bool
  | null => true
  | _ => false

/-- Only the truth value true; NULL and false both reject a row. -/
def isTrue : Value → Bool
  | bool true => true
  | _ => false

def isFalse : Value → Bool
  | bool false => true
  | _ => false

/-- The order of a whole number and a floating one. The whole one is rounded first; where the two
are then equal the floating one is whole, and the numbers as they were settle what rounding lost. -/
def compareIntFloat (n : Int) (x : Float) : Ordering :=
  match Magnitude.ofFloat x with
  | .notANumber => .lt
  | m => (Ord.compare (Magnitude.ofInt (Binary64.roundInt n)) m).then (Ord.compare n m.wholePart)

protected def compare : Value → Value → Ordering
  | null, null => .eq
  | bool a, bool b => Ord.compare a b
  | int a, int b => Ord.compare a.toInt b.toInt
  | int a, float b => compareIntFloat a.toInt b
  | float a, int b => (compareIntFloat b.toInt a).swap
  | float a, float b => Ord.compare (Magnitude.ofFloat a) (Magnitude.ofFloat b)
  | text a, text b => Ord.compare a b
  | date a, date b => Ord.compare a.toInt b.toInt
  | a, b => Ord.compare a.valueClass b.valueClass

instance : Ord Value := ⟨Value.compare⟩

/-- Equality under the total order: the integer 4 and the float 4.0 are equal. -/
instance : BEq Value := ⟨fun a b => Ord.compare a b == .eq⟩

/-- The SQL comparison: unknown if either side is NULL or the classes differ. -/
def sqlCompare (a b : Value) : Option Ordering :=
  if a.isNull || b.isNull || a.valueClass != b.valueClass then none else some (Ord.compare a b)

/-- Sameness with NULL as an ordinary value. -/
def isSame (a b : Value) : Bool :=
  match a.isNull, b.isNull with
  | true, true => true
  | false, false => a.valueClass == b.valueClass && a == b
  | _, _ => false

def compareWith (op : Comparison) (a b : Value) : Value :=
  match op with
  | .is => bool (isSame a b)
  | .isNot => bool (!isSame a b)
  | _ =>
    match sqlCompare a b with
    | none => null
    | some ord => bool (op.holds ord)

/-- A whole number as an integer value, NULL when it needs more than 64 bits. -/
def ofInt (n : Int) : Value :=
  if Int64.minValue.toInt ≤ n ∧ n ≤ Int64.maxValue.toInt then int (.ofInt n) else null

def integerArith (op : Arithmetic) (a b : Int) : Value :=
  match op with
  | .add => ofInt (a + b)
  | .sub => ofInt (a - b)
  | .mul => ofInt (a * b)
  | .div => if b = 0 then null else ofInt (a.tdiv b)

def floatArith (op : Arithmetic) (a b : Float) : Value :=
  match op with
  | .add => float (a + b)
  | .sub => float (a - b)
  | .mul => float (a * b)
  | .div => if b == 0 then null else float (a / b)

def toFloat? : Value → Option Float
  | int v => some v.toFloat
  | float v => some v
  | _ => none

/-- Arithmetic on values; NULL or non-numeric operands, overflow and division by zero give NULL. -/
def arith (op : Arithmetic) (a b : Value) : Value :=
  match a, b with
  | int x, int y => integerArith op x.toInt y.toInt
  | _, _ =>
    match a.toFloat?, b.toFloat? with
    | some x, some y => floatArith op x y
    | _, _ => null

def conjunction (values : List Value) : Value :=
  if values.any isFalse then bool false
  else if values.all isTrue then bool true
  else null

def disjunction (values : List Value) : Value :=
  if values.any isTrue then bool true
  else if values.all isFalse then bool false
  else null

def negation : Value → Value
  | bool b => bool !b
  | _ => null

end Value

end JoinPlanner
