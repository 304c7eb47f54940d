import JoinPlanner.Decimal.Shortest
import JoinPlanner.Value.Basic

/-!
# The text of a value

Text stands between single quotes, with every quote in it doubled; floats are written as the
shortest decimal that reads back.
-/

namespace JoinPlanner.Value

/-- Every single quote written twice. -/
def doubleQuotes : List Char → List Char
  | [] => []
  | c :: rest => if c = '\'' then c :: c :: doubleQuotes rest else c :: doubleQuotes rest

def render : Value → String
  | null => "NULL"
  | bool b => if b then "true" else "false"
  | int v => toString v.toInt
  | float v => Decimal.shortest v
  | text s => "'" ++ String.ofList (doubleQuotes s.toList) ++ "'"
  | date day => "DATE(" ++ toString day.toInt ++ ")"

end JoinPlanner.Value
