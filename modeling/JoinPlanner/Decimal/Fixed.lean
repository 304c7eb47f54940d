import JoinPlanner.Decimal.Binary
import JoinPlanner.Decimal.Shortest

/-!
# Decimals of a fixed number of places

`Decimal.fixed places x` rounds the exact value of a float to a number of decimal places; a value
halfway between two neighbours goes to the even one.
-/

namespace JoinPlanner.Decimal

/-- The whole number nearest to `num / den`, the even one of two equally near. -/
def roundHalfEven (num den : Nat) : Nat :=
  let whole := num / den
  match compare (2 * (num % den)) den with
  | .lt => whole
  | .eq => whole + whole % 2
  | .gt => whole + 1

/-- The text of a float with exactly `places` decimal places. -/
def fixed (places : Nat) (x : Float) : String :=
  match Binary64.ofFloat x with
  | .nan => "NaN"
  | .infinite negative => if negative then "-inf" else "inf"
  | .finite negative significand scale =>
    let num := significand <<< (scale - 1074) * Nat.pow 10 places
    let den := 1 <<< (1074 - scale)
    (if negative then "-" else "") ++ positional (roundHalfEven num den) (-places)

end JoinPlanner.Decimal
