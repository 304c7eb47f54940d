/-!
# The exact value of a binary64 number

`Binary64.ofBits` reads a float's bits as not a number, an infinity, or a sign and a whole number
of units; the unit is the least positive float, `2 ^ -1074`, and every finite float is a whole
number of them. `Magnitude` is the place of a number, whole or floating, on the extended line, where
not a number stands above everything and both zeros are one place. `Binary64.roundInt` and
`Magnitude.wholePart` are the conversions from whole numbers to floats and back.
-/

namespace JoinPlanner

/-- The content of a float; a finite one is `significand * 2 ^ scale` units of `2 ^ -1074`. -/
inductive Binary64
  | nan
  | infinite (negative : Bool)
  | finite (negative : Bool) (significand scale : Nat)
deriving DecidableEq, Repr

namespace Binary64

/-- The leading bit of a significand, which is not stored. -/
def leadingBit : Nat := 1 <<< 52

def ofBits (bits : UInt64) : Binary64 :=
  let bits := bits.toNat
  let fraction := bits % leadingBit
  let exponent := (bits >>> 52) % 0x800
  let negative := bits >>> 63 == 1
  if exponent = 0x7ff then
    if fraction = 0 then infinite negative else nan
  else if exponent = 0 then finite negative fraction 0
  else finite negative (leadingBit + fraction) (exponent - 1)

def ofFloat (x : Float) : Binary64 := ofBits x.toBits

/-- The nearest float, at a tie the one of even significand: of the bits beyond the first 53 nothing
is left, so that it is a whole number again. -/
def roundNat (n : Nat) : Nat :=
  let shift := n.log2 - 52
  let kept := n >>> shift
  let rest := n % (1 <<< shift)
  if 2 * rest < 1 <<< shift ∨ 2 * rest = 1 <<< shift ∧ kept % 2 = 0 then kept <<< shift
  else (kept + 1) <<< shift

def roundInt : Int → Int
  | .ofNat n => roundNat n
  | .negSucc n => -(roundNat (n + 1) : Int)

end Binary64

/-- A float that is kept as its bits, so that it can be told of a constant whether it is a number. -/
structure FloatBits where
  bits : UInt64
deriving DecidableEq, Inhabited, Repr

namespace FloatBits

def ofFloat (x : Float) : FloatBits := ⟨x.toBits⟩

def toFloat (x : FloatBits) : Float := .ofBits x.bits

def isNumber (x : FloatBits) : Bool := Binary64.ofBits x.bits != .nan

end FloatBits

inductive Magnitude
  | negativeInfinity
  | finite (units : Int)
  | positiveInfinity
  | notANumber
deriving DecidableEq, Repr

namespace Magnitude

def unitsPerOne : Nat := 1 <<< 1074

def ofInt (n : Int) : Magnitude := finite (n * unitsPerOne)

def ofBinary : Binary64 → Magnitude
  | .nan => notANumber
  | .infinite true => negativeInfinity
  | .infinite false => positiveInfinity
  | .finite true significand scale => finite (-(significand <<< scale : Nat))
  | .finite false significand scale => finite (significand <<< scale : Nat)

def ofFloat (x : Float) : Magnitude := ofBinary (.ofFloat x)

/-- The order of the places that are not finite, and of the finite ones among them. -/
def rank : Magnitude → Nat
  | negativeInfinity => 0
  | finite _ => 1
  | positiveInfinity => 2
  | notANumber => 3

def units : Magnitude → Int
  | finite n => n
  | _ => 0

def wholeLimit : Nat := 1 <<< 127

/-- The whole number of 128 bits that a number is cut off to; one out of bounds goes to the nearer
end, and what is not a number to zero. -/
def wholePart : Magnitude → Int
  | negativeInfinity => -wholeLimit
  | finite n => max (-wholeLimit) (min (n.tdiv unitsPerOne) (wholeLimit - 1))
  | positiveInfinity => wholeLimit - 1
  | notANumber => 0

instance : Ord Magnitude := ⟨compareLex (compareOn rank) (compareOn units)⟩

instance : Std.TransOrd Magnitude :=
  inferInstanceAs (Std.TransCmp (compareLex (compareOn rank) (compareOn units)))

instance : Std.LawfulEqOrd Magnitude where
  eq_of_compare {a b} h := by
    have h : (compare a.rank b.rank).then (compare a.units b.units) = .eq := h
    obtain ⟨hr, hu⟩ := Ordering.then_eq_eq.1 h
    have hr := Std.LawfulEqCmp.eq_of_compare hr
    have hu := Std.LawfulEqCmp.eq_of_compare hu
    cases a <;> cases b <;> simp_all [rank, units]

end Magnitude

end JoinPlanner
