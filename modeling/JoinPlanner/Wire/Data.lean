import JoinPlanner.Range.Basic

/-!
# Data trees

The form in which trees, ranges, queries and settings are exchanged: null, truth values, numbers,
texts, lists and objects with named fields. `Decode` is a reading of one, strict or tolerant; it
fails because the data is malformed or because the range that it describes is.
-/

namespace JoinPlanner.Wire

inductive Data
  | null
  | bool (value : Bool)
  | int (value : Int)
  | float (value : Float)
  | text (value : String)
  | list (items : List Data)
  | object (fields : List (String × Data))
deriving Inhabited

inductive DecodeError
  | malformed
  | range (error : RangeError)
deriving DecidableEq, Repr

def DecodeError.message : DecodeError → String
  | malformed => "malformed"
  | range error => error.message

/-- How much a reading lets pass. A tolerant one takes an empty object, as it does null, for the
payload of an alternative that carries nothing. -/
inductive Tolerance
  | strict
  | tolerant
deriving DecidableEq, Repr

/-- A reading, which depends on how much it lets pass. -/
abbrev Decode := ReaderT Tolerance (Except DecodeError)

instance : MonadLift (Except RangeError) Decode := ⟨fun x _ => x.mapError .range⟩

def malformed {α : Type} : Decode α := throw .malformed

def required {α : Type} : Option α → Decode α
  | some a => pure a
  | none => malformed

namespace Data

mutual

def depth : Data → Nat
  | list items => depthOfList items + 1
  | object fields => depthOfFields fields + 1
  | _ => 1

def depthOfList : List Data → Nat
  | [] => 0
  | d :: rest => max d.depth (depthOfList rest)

def depthOfFields : List (String × Data) → Nat
  | [] => 0
  | f :: rest => max (depthOfField f) (depthOfFields rest)

def depthOfField : String × Data → Nat
  | (_, d) => d.depth

end

def asBool : Data → Decode Bool
  | bool b => pure b
  | _ => malformed

def asText : Data → Decode String
  | text s => pure s
  | _ => malformed

/-- A whole number between two bounds, both included. -/
def asInt (lower upper : Int) : Data → Decode Int
  | int n => if lower ≤ n ∧ n ≤ upper then pure n else malformed
  | _ => malformed

def asCount (d : Data) : Decode Nat := return (← d.asInt 0 0xffffffffffffffff).toNat

/-- A number; a whole one is rounded to the nearest float. -/
def asFloat : Data → Decode Float
  | float x => pure x
  | int n => pure (if n < 0 then -Float.ofNat n.natAbs else Float.ofNat n.natAbs)
  | _ => malformed

def asList {α : Type} (item : Data → Decode α) : Data → Decode (List α)
  | list items => items.mapM item
  | _ => malformed

def asOption {α : Type} (value : Data → Decode α) : Data → Decode (Option α)
  | null => pure none
  | d => return some (← value d)

def asObject : Data → Decode (List (String × Data))
  | object fields => pure fields
  | _ => malformed

def optional {α : Type} (fields : List (String × Data)) (name : String) (value : Data → Decode α) :
    Decode (Option α) :=
  (fields.lookup name).mapM value

def nullable {α : Type} (fields : List (String × Data)) (name : String) (value : Data → Decode α) :
    Decode (Option α) :=
  return (← optional fields name (asOption value)).join

/-- The name of an alternative and what it carries: a text names one that carries nothing. -/
def asVariant : Data → Decode (String × Option Data)
  | text name => pure (name, none)
  | object [(name, payload)] => pure (name, some payload)
  | _ => malformed

/-- An alternative that carries nothing. -/
def asUnit {α : Type} (value : α) : Option Data → Decode α
  | none | some null => pure value
  | some (object []) => do
    match ← read with
    | .strict => malformed
    | .tolerant => pure value
  | _ => malformed

/-- One of the values of a list that have a name and carry nothing. -/
def asNamed {α : Type} (values : List α) (name : α → String) (d : Data) : Decode α := do
  let (found, payload) ← d.asVariant
  let value ← required (values.find? fun v => name v == found)
  asUnit value payload

/-- An object of one field, as an alternative that carries data is written. -/
def variant (name : String) (payload : Data) : Data := object [(name, payload)]

def ofOption {α : Type} (value : α → Data) : Option α → Data
  | none => null
  | some a => value a

def ofList {α : Type} (item : α → Data) (items : List α) : Data := list (items.map item)

def ofNat (n : Nat) : Data := int n

end Data

end JoinPlanner.Wire
