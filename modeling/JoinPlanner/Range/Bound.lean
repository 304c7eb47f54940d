import JoinPlanner.Value.Text

/-!
# Bounds of key ranges

A key is the list of values of the columns of an index. Keys lie in an ordered space with four
marks: `beforeFirst`, the keys that begin with NULL, `first`, all other keys, `last`, `afterLast`;
and each key has a bound immediately before it and one immediately after it. Keys of different
lengths are compared on their common length, so a short key stands for all keys that it begins.
-/

namespace JoinPlanner

abbrev Key := List Value

namespace Key

/-- The order of two keys on their common length. -/
protected def compare : Key → Key → Ordering
  | a :: as, b :: bs => (Ord.compare a b).then (Key.compare as bs)
  | _, _ => .eq

def beginsWithNull : Key → Bool
  | a :: _ => a.isNull
  | [] => false

def render (key : Key) : String := ", ".intercalate (key.map Value.render)

end Key

inductive KeyBound
  | beforeFirst
  | first
  | before (key : Key)
  | after (key : Key)
  | last
  | afterLast
deriving BEq, Inhabited, Repr

namespace KeyBound

protected def compare : KeyBound → KeyBound → Ordering
  | beforeFirst, beforeFirst | first, first | last, last | afterLast, afterLast => .eq
  | beforeFirst, _ => .lt
  | _, beforeFirst => .gt
  | afterLast, _ => .gt
  | _, afterLast => .lt
  | last, _ => .gt
  | _, last => .lt
  | first, before key | first, after key => if Key.beginsWithNull key then .gt else .lt
  | before key, first | after key, first => if Key.beginsWithNull key then .lt else .gt
  | before a, before b | after a, after b => Key.compare a b
  | before a, after b => (Key.compare a b).then .lt
  | after a, before b => (Key.compare a b).then .gt

/-- The side of a key on which a bound lies; a bound is never at a key. -/
def compareKey (bound : KeyBound) (key : Key) : Ordering :=
  match bound with
  | beforeFirst => .lt
  | first => if Key.beginsWithNull key then .gt else .lt
  | before b => (Key.compare b key).then .lt
  | after b => (Key.compare b key).then .gt
  | last | afterLast => .gt

def key? : KeyBound → Option Key
  | before key | after key => some key
  | _ => none

def render : KeyBound → String
  | beforeFirst => "BEFORE_FIRST"
  | first => "FIRST"
  | before key => "before(" ++ Key.render key ++ ")"
  | after key => "after(" ++ Key.render key ++ ")"
  | last => "LAST"
  | afterLast => "AFTER_LAST"

end KeyBound

/-- The keys strictly between two bounds. -/
structure KeyInterval where
  lower : KeyBound
  upper : KeyBound
deriving BEq, Inhabited, Repr

namespace KeyInterval

def isEmpty (i : KeyInterval) : Bool := i.lower.compare i.upper != .lt

def contains (i : KeyInterval) (key : Key) : Bool :=
  i.lower.compareKey key == .lt && i.upper.compareKey key == .gt

/-- Whether two intervals overlap or touch, so that one interval covers both and nothing else. -/
def meets (i j : KeyInterval) : Bool :=
  i.lower.compare j.upper != .gt && j.lower.compare i.upper != .gt

def inter (i j : KeyInterval) : KeyInterval where
  lower := if j.lower.compare i.lower == .gt then j.lower else i.lower
  upper := if j.upper.compare i.upper == .lt then j.upper else i.upper

def hull (i j : KeyInterval) : KeyInterval where
  lower := if j.lower.compare i.lower == .lt then j.lower else i.lower
  upper := if j.upper.compare i.upper == .gt then j.upper else i.upper

def render (i : KeyInterval) : String := i.lower.render ++ " .. " ++ i.upper.render

end KeyInterval

end JoinPlanner
