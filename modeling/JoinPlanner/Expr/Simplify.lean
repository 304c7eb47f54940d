import JoinPlanner.Expr.Eval
import JoinPlanner.Expr.Walk

/-!
# Simplification

`Expr.simplify` brings a filter, from its leaves up, into the form in which the planner reads it. A
comparison of a column with a constant becomes a range term; the terms of a conjunction
(disjunction) on one column whose values are of one class become one, by intersection (union); what
reads no data is evaluated. A range that holds every key, or none, is a truth value.
-/

namespace JoinPlanner

/-- The two connectives whose terms are merged. -/
inductive Junction
  | all
  | any
deriving DecidableEq, Repr

namespace Junction

def op : Junction → FunctionOp
  | all => .and
  | any => .or

def neutral : Junction → Bool
  | all => true
  | any => false

def combine : Junction → KeyRange → KeyRange → KeyRange
  | all => KeyRange.interSameWidth
  | any => KeyRange.unionSameWidth

def terms? : Junction → Expr → Option (List Expr)
  | all, .apply .and args => some args
  | any, .apply .or args => some args
  | _, _ => none

end Junction

namespace Expr

def constant? (e : Expr) : Option Value := if e.isStatic then e.eval else none

/-- The literal of an expression that reads no data, and any other expression as it is. -/
def foldConstant (e : Expr) : Expr :=
  match e.constant? with
  | some v => literal v
  | none => e

/-- A range term, or the truth value of a range that decides every row. -/
def rangeOrTruth (c : ColumnRef) (range : KeyRange) : Expr :=
  if range.isEmpty then bool false
  else if range.isFull then bool true
  else inRange c range

/-- A comparison of a column with a constant, the column on the left. -/
def columnComparison? (op : Comparison) (left right : Expr) :
    Option (ColumnRef × Comparison × Value) :=
  match left.column?, right.constant? with
  | some c, some v => some (c, op, v)
  | _, _ =>
    match left.constant?, right.column? with
    | some v, some c => some (c, op.swap, v)
    | _, _ => none

def simplifyComparison (op : Comparison) (left right : Expr) : Expr :=
  match columnComparison? op left right with
  | some (c, op, v) =>
    if v.isNull && !op.seesNull then literal .null else rangeOrTruth c (.comparing op [v])
  | none => foldConstant (compare op left right)

/-- Merges the range term `term` of a column into the first term that it may be merged with, or puts
it last. -/
def mergeRange (j : Junction) (c : ColumnRef) (range : KeyRange) (term : Expr) :
    List Expr → List Expr
  | [] => [term]
  | e :: rest =>
    match e.rangeTerm? with
    | some (c', range') =>
      if c' == c && range'.width == range.width && range'.sameClass range then
        rangeOrTruth c (j.combine range' range) :: rest
      else e :: mergeRange j c range term rest
    | none => e :: mergeRange j c range term rest

def mergeTerm (j : Junction) (merged : List Expr) (term : Expr) : List Expr :=
  match term.rangeTerm? with
  | some (c, range) => mergeRange j c range term merged
  | none => merged ++ [term]

def isTruth (b : Bool) : Expr → Bool
  | literal (.bool b') => b' == b
  | _ => false

def simplifyJunction (j : Junction) (args : List Expr) : Expr :=
  let terms := args.flatMap fun e => (j.terms? e).getD [e]
  let merged := terms.foldl (mergeTerm j) []
  if merged.any (isTruth !j.neutral) then bool !j.neutral
  else
    match merged.filter (!isTruth j.neutral ·) with
    | [] => bool j.neutral
    | [e] => e
    | rest => foldConstant (apply j.op rest)

/-- Simplifies a node whose children are simple. -/
def simplifyNode : Expr → Expr
  | apply .and args => simplifyJunction .all args
  | apply .or args => simplifyJunction .any args
  | apply (.compare op) [left, right] => simplifyComparison op left right
  | apply (.compare op) args => apply (.compare op) args
  | apply op args => foldConstant (apply op args)
  | e => e

def simplify (e : Expr) : Expr :=
  Id.run (e.transformM (fun _ => pure .enter) fun node => pure node.simplifyNode)

end Expr

end JoinPlanner
