/-!
# Numbers of the cost model

The cost model and the search need few operations of their numbers, those of `CostNumber`, so that
they may be run on floats and reasoned about over any other such type. The order is given by `le`
alone; a number with `le x x = false` is not a number and stands above all others in
`CostNumber.order`.
-/

namespace JoinPlanner

class CostNumber (κ : Type) extends Add κ, Sub κ, Mul κ, Div κ where
  ofCount : Nat → κ
  infinity : κ
  isFinite : κ → Bool
  /-- The order; false if a side is not a number. -/
  le : κ → κ → Bool
  abs : κ → κ

namespace CostNumber
variable {κ : Type} [CostNumber κ]

def lt (a b : κ) : Bool := le a b && !le b a

/-- Whether `x` is a number at all. -/
def isNumber (x : κ) : Bool := le x x

/-- The lesser of two; the other one if one is not a number. -/
def min (a b : κ) : κ := if !isNumber a || lt b a then b else a

/-- A total order, with all that is not a number in one place at the top. -/
def order (a b : κ) : Ordering :=
  match le a b, le b a with
  | true, true => .eq
  | true, false => .lt
  | false, true => .gt
  | false, false => compare (!isNumber a) (!isNumber b)

instance : CostNumber Float where
  ofCount := Float.ofNat
  infinity := 1 / 0
  isFinite := Float.isFinite
  le a b := decide (a ≤ b)
  abs := Float.abs

end CostNumber

end JoinPlanner
