import JoinPlanner.Decimal.Fixed
import JoinPlanner.Expr.Text
import JoinPlanner.Plan.Basic

/-!
# The listing of a plan

One line per operator, its inputs below it and two spaces further in, with rows and time to one
decimal place where they are known.
-/

namespace JoinPlanner

def Cost.render (cost : Cost Float) : String :=
  " (rows=" ++ Decimal.fixed 1 cost.rows ++ " time=" ++ Decimal.fixed 1 cost.time ++ ")"

def SortKey.render (k : SortKey Expr) : String :=
  k.key.render ++ if k.ascending then " ASC" else " DESC"

/-- A remark on a line, if there is anything to remark. -/
def remark {α : Type} (label : String) (render : α → String) : Option α → String
  | some a => label ++ render a
  | none => ""

def FilterKind.details : FilterKind Expr → String
  | select predicate path => " " ++ predicate.render ++ remark " index=" AccessPath.render path
  | guard predicate => " " ++ predicate.render
  | sort keys path =>
    " " ++ ", ".intercalate (keys.map SortKey.render) ++ remark " index=" AccessPath.render path
  | computed | aggregate _ => ""

namespace Plan

/-- The lines of a plan, each with its line end. -/
def explainAt (indent : String) : Plan Float → String
  | leaf e cost => indent ++ e.render ++ remark "" Cost.render cost ++ "\n"
  | filter kind child cost =>
    indent ++ "Filter[" ++ kind.name ++ "]" ++ remark "" Cost.render cost ++ kind.details ++ "\n"
      ++ child.explainAt (indent ++ "  ")
  | join kind left right on hints cost =>
    indent ++ "Join[" ++ kind.name ++ "]" ++ remark "" Cost.render cost
      ++ remark " on " Expr.render on
      ++ remark " right_index=" AccessPath.render hints.rightPath
      ++ remark " left_index=" AccessPath.render hints.leftPath
      ++ remark " fact=" FactKey.text hints.fact ++ "\n"
      ++ left.explainAt (indent ++ "  ") ++ right.explainAt (indent ++ "  ")

def explain (p : Plan Float) : String := p.explainAt ""

end Plan

end JoinPlanner
