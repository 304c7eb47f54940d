import JoinPlanner.Range.Bound
import JoinPlanner.SortedSet

/-!
# Key ranges

A `KeyRange` is a set of keys of `width` columns as a list of intervals, sorted, apart from one
another and none empty; every operation restores that form. A comparison of a column with a constant
is a range (`KeyRange.ofComparison`), and conjunction and disjunction of such comparisons are
intersection and union.
-/

namespace JoinPlanner

inductive RangeError
  | widthMismatch (left right : Nat)
  | emptyKey
deriving DecidableEq, Repr

namespace RangeError

def message : RangeError → String
  | widthMismatch left right =>
    "range width mismatch: " ++ toString left ++ " column(s) vs " ++ toString right ++ " column(s)"
  | emptyKey => "cannot build a range from an empty value tuple"

end RangeError

/-- A set of keys of `width` columns. -/
structure KeyRange where
  width : Nat
  intervals : List KeyInterval
deriving BEq, Inhabited, Repr

namespace KeyRange

/-- Adds an interval before the first one that begins later. -/
def insertInterval (intervals : List KeyInterval) (i : KeyInterval) : List KeyInterval :=
  let earlier := fun j : KeyInterval => j.lower.compare i.lower != .gt
  intervals.takeWhile earlier ++ i :: intervals.dropWhile earlier

/-- Adds an interval after merging into it every interval that it meets. -/
def absorb (intervals : List KeyInterval) (i : KeyInterval) : List KeyInterval :=
  match _h : intervals.find? (·.meets i) with
  | some j => absorb (intervals.eraseP (·.meets i)) (i.hull j)
  | none => insertInterval intervals i
termination_by intervals.length
decreasing_by
  have mem := List.mem_of_find?_eq_some _h
  have met : j.meets i = true := List.find?_some (p := fun j : KeyInterval => j.meets i) _h
  have := List.length_pos_of_mem mem
  rw [List.length_eraseP_of_mem mem met]
  omega

/-- The range of the keys that lie in one of the intervals. -/
def ofIntervals (width : Nat) (intervals : List KeyInterval) : KeyRange :=
  ⟨width, (intervals.filter (!·.isEmpty)).foldl absorb []⟩

/-- Every key, those with NULL included. -/
def full (width : Nat) : KeyRange := ⟨width, [⟨.beforeFirst, .afterLast⟩]⟩

def empty (width : Nat) : KeyRange := ⟨width, []⟩

/-- The intervals of the keys that satisfy a comparison with `key`. No ordering comparison holds of
NULL, and `IS NOT NULL` holds of every other value. -/
def comparisonIntervals (op : Comparison) (key : Key) : List KeyInterval :=
  match op with
  | .eq | .is => [⟨.before key, .after key⟩]
  | .ne => [⟨.first, .before key⟩, ⟨.after key, .last⟩]
  | .isNot =>
    if key.all Value.isNull then [⟨.first, .last⟩]
    else [⟨.beforeFirst, .before key⟩, ⟨.after key, .afterLast⟩]
  | .lt => [⟨.first, .before key⟩]
  | .le => [⟨.first, .after key⟩]
  | .gt => [⟨.after key, .last⟩]
  | .ge => [⟨.before key, .last⟩]

def comparing (op : Comparison) (key : Key) : KeyRange :=
  ofIntervals key.length (comparisonIntervals op key)

def ofComparison (op : Comparison) (key : Key) : Except RangeError KeyRange :=
  if key.isEmpty then .error .emptyKey else .ok (comparing op key)

def count (r : KeyRange) : Nat := r.intervals.length

def isEmpty (r : KeyRange) : Bool := r.intervals.isEmpty

def isFull (r : KeyRange) : Bool :=
  match r.intervals with
  | [⟨.beforeFirst, .afterLast⟩] => true
  | _ => false

def contains (r : KeyRange) (key : Key) : Bool := r.intervals.any (·.contains key)

/-- The keys in both of two ranges of one width: the intersection of every two intervals. -/
def interSameWidth (r s : KeyRange) : KeyRange :=
  ofIntervals r.width (r.intervals.flatMap fun i => s.intervals.map i.inter)

/-- The keys in either of two ranges of one width. -/
def unionSameWidth (r s : KeyRange) : KeyRange := ⟨r.width, r.intervals.foldl absorb s.intervals⟩

def inter (r s : KeyRange) : Except RangeError KeyRange :=
  if r.width = s.width then .ok (r.interSameWidth s) else .error (.widthMismatch r.width s.width)

def union (r s : KeyRange) : Except RangeError KeyRange :=
  if r.width = s.width then .ok (r.unionSameWidth s) else .error (.widthMismatch r.width s.width)

/-- The key that is the only one in the range. -/
def point? (r : KeyRange) : Option Key :=
  match r.intervals with
  | [⟨.before lower, .after upper⟩] => if lower == upper then some lower else none
  | _ => none

def valueClasses (r : KeyRange) : SortedSet ValueClass :=
  let keys := r.intervals.flatMap fun i => i.lower.key?.toList ++ i.upper.key?.toList
  .ofList ((keys.flatten.filter (!·.isNull)).map Value.valueClass)

/-- Whether the bounds of both ranges hold values of at most one class. -/
def sameClass (r s : KeyRange) : Bool := (r.valueClasses ∪ s.valueClasses).size ≤ 1

def render (r : KeyRange) : String :=
  "\x7b" ++ "; ".intercalate (r.intervals.map KeyInterval.render) ++ "\x7d"

end KeyRange

end JoinPlanner
