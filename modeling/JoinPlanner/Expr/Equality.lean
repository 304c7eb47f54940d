import JoinPlanner.Expr.Basic

/-!
# Equality of expressions

Two trees are equal when they have the same nodes and equal values, so that the literals 4 and 4.0
make equal trees.
-/

namespace JoinPlanner.Expr

mutual

protected def beq : Expr → Expr → Bool
  | column c, column d => c == d
  | literal v, literal w => v == w
  | table t, table u => t == u
  | aliased n s, aliased n' s' => n == n' && s.beq s'
  | apply op args, apply op' args' => op == op' && beqList args args'
  | filter kind child, filter kind' child' => beqFilter kind kind' && child.beq child'
  | join kind l r on hints, join kind' l' r' on' hints' =>
    kind == kind' && l.beq l' && r.beq r' && beqOption on on' && hints == hints'
  | _, _ => false

def beqList : List Expr → List Expr → Bool
  | [], [] => true
  | e :: rest, f :: rest' => e.beq f && beqList rest rest'
  | _, _ => false

def beqOption : Option Expr → Option Expr → Bool
  | none, none => true
  | some e, some f => e.beq f
  | _, _ => false

def beqFilter : FilterKind Expr → FilterKind Expr → Bool
  | .select p path, .select p' path' => p.beq p' && path == path'
  | .sort keys path, .sort keys' path' => beqKeys keys keys' && path == path'
  | .guard p, .guard p' => p.beq p'
  | .computed, .computed => true
  | .aggregate es, .aggregate es' => beqList es es'
  | _, _ => false

def beqKeys : List (SortKey Expr) → List (SortKey Expr) → Bool
  | [], [] => true
  | k :: rest, k' :: rest' => beqKey k k' && beqKeys rest rest'
  | _, _ => false

def beqKey : SortKey Expr → SortKey Expr → Bool
  | ⟨e, ascending⟩, ⟨e', ascending'⟩ => e.beq e' && ascending == ascending'

end

instance : BEq Expr := ⟨Expr.beq⟩

end JoinPlanner.Expr
