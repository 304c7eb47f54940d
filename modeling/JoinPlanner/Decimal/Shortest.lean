import JoinPlanner.Decimal.Binary

/-!
# The shortest decimal that reads back

`Decimal.shortest` writes a float with the fewest digits that still determine it. The numbers that
round to a float form an interval around it; the digits are the multiple of the largest power of ten
that lies in this interval, the one nearest to the float if there are two, and the greater one if
both are equally near. The text is positional: no exponent, and no point in a whole number.
-/

namespace JoinPlanner.Decimal

/-- The numbers that round to `value / den`: between `lower / den` and `upper / den`, the ends
included when `closed`. -/
structure RoundingInterval where
  lower : Nat
  value : Nat
  upper : Nat
  den : Nat
  closed : Bool

/-- The numbers that round to `significand * 2 ^ scale` units. The next float below a power of two
is only half as far as the one above, save at the least scale. -/
def RoundingInterval.around (significand scale : Nat) : RoundingInterval :=
  let below := if significand = Binary64.leadingBit ∧ scale ≠ 0 then 1 else 2
  { lower := (4 * significand - below) <<< (scale - 1076)
    value := (4 * significand) <<< (scale - 1076)
    upper := (4 * significand + 2) <<< (scale - 1076)
    den := 1 <<< (1076 - scale)
    closed := significand % 2 == 0 }

def powerOfTen (p : Int) : Nat × Nat := (Nat.pow 10 p.toNat, Nat.pow 10 (-p).toNat)

namespace RoundingInterval
variable (i : RoundingInterval)

def contains (digits : Nat) (p : Int) : Bool :=
  let (num, den) := powerOfTen p
  let point := digits * num * i.den
  let lower := i.lower * den
  let upper := i.upper * den
  if i.closed then lower ≤ point && point ≤ upper else lower < point && point < upper

/-- The multiple of `10 ^ p` in the interval that is nearest to the value, if there is one: one of
the value's two neighbours on that grid. -/
def nearest (p : Int) : Option Nat :=
  let (num, den) := powerOfTen p
  let step := num * i.den
  let value := i.value * den
  let below := value / step
  let belowIsNearer := 2 * (value % step) < step
  match i.contains below p, i.contains (below + 1) p with
  | true, true => some (if belowIsNearer then below else below + 1)
  | true, false => some below
  | false, true => some (below + 1)
  | false, false => none

/-- The digits on the coarsest grid with a point in the interval, searched from `10 ^ p` down. -/
def coarsest : Nat → Int → Nat × Int
  | 0, p => ((i.nearest p).getD 0, p)
  | steps + 1, p =>
    match i.nearest p with
    | some digits => (digits, p)
    | none => coarsest steps (p - 1)

/-- A power of ten that exceeds the value, and less than a thousand times. -/
def exceedingPower : Int :=
  let binary : Int := (Nat.log2 i.value : Int) - (Nat.log2 i.den : Int) + 1
  binary * 30103 / 100000 + 1

/-- The fewest digits that determine the value, and the power of ten of the last one. -/
def digits : Nat × Int := i.coarsest 21 i.exceedingPower

end RoundingInterval

def positional (digits : Nat) (p : Int) : String :=
  let text := (Nat.toDigits 10 digits)
  match p with
  | .ofNat zeros => String.ofList (text ++ List.replicate zeros '0')
  | .negSucc n =>
    let places := n + 1
    let padded := List.replicate (places + 1 - text.length) '0' ++ text
    let whole := padded.length - places
    String.ofList (padded.take whole ++ '.' :: padded.drop whole)

/-- The text of a float: the shortest that reads back, without an exponent. -/
def shortest (x : Float) : String :=
  match Binary64.ofFloat x with
  | .nan => "NaN"
  | .infinite negative => if negative then "-inf" else "inf"
  | .finite negative significand scale =>
    let sign := if negative then "-" else ""
    if significand = 0 then sign ++ "0"
    else
      let (digits, p) := (RoundingInterval.around significand scale).digits
      sign ++ positional digits p

end JoinPlanner.Decimal
