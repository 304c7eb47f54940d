import JoinPlanner.Proofs.Expr.Conjuncts
import JoinPlanner.Proofs.Range.Stored

/-!
# The ranges of an expression

Ranges stand in range terms, and in the access paths of filters and joins. `Expr.RangesIn p e` says that every
range of the tree satisfies `p`; it is known from a node's own ranges and its parts, among which are, other than
among its children, what a filter holds. A tree whose ranges can all be stored can be stored itself
(`Expr.Storable`).
-/

namespace JoinPlanner

def FunctionOp.ranges : FunctionOp → List KeyRange
  | inRange range => [range]
  | _ => []

def AccessPath.ranges (p : AccessPath) : List KeyRange := p.range.toList

def JoinHints.paths (h : JoinHints) : List AccessPath := h.leftPath.toList ++ h.rightPath.toList

namespace FilterKind

def parts : FilterKind Expr → List Expr
  | select predicate _ => [predicate]
  | sort keys _ => keys.map (·.key)
  | guard predicate => [predicate]
  | computed => []
  | aggregate groupBy => groupBy

def path? : FilterKind Expr → Option AccessPath
  | select _ path => path
  | sort _ path => path
  | _ => none

end FilterKind

namespace Expr

/-- The expressions that a node is made of. -/
def parts : Expr → List Expr
  | column _ | literal _ | table _ => []
  | aliased _ source => [source]
  | apply _ args => args
  | filter kind child => child :: kind.parts
  | join _ left right on _ => left :: right :: on.toList

/-- The ranges of a node apart from those of its parts. -/
def ownRanges : Expr → List KeyRange
  | apply op _ => op.ranges
  | filter kind _ => kind.path?.toList.flatMap AccessPath.ranges
  | join _ _ _ _ hints => hints.paths.flatMap AccessPath.ranges
  | _ => []

/-- Every range of the tree satisfies `p`. -/
inductive RangesIn (p : KeyRange → Prop) : Expr → Prop
  | intro (e : Expr) (own : ∀ r ∈ e.ownRanges, p r) (parts : ∀ e' ∈ e.parts, RangesIn p e') : RangesIn p e

variable {p : KeyRange → Prop} {e e' : Expr}

namespace RangesIn

theorem own (h : e.RangesIn p) : ∀ r ∈ e.ownRanges, p r := by
  cases h
  assumption

theorem part (h : e.RangesIn p) (he : e' ∈ e.parts) : e'.RangesIn p := by
  cases h with
  | intro _ _ parts => exact parts e' he

end RangesIn

theorem rangesIn_literal (v : Value) : (literal v).RangesIn p := .intro _ nofun nofun

theorem rangesIn_relation (name base : TableName) : (relation name base).RangesIn p :=
  .intro _ nofun fun _ he => List.mem_singleton.1 he ▸ .intro _ nofun nofun

theorem rangesIn_apply {op : FunctionOp} {args : List Expr} (hop : op.ranges = []) :
    (apply op args).RangesIn p ↔ ∀ e ∈ args, e.RangesIn p :=
  ⟨fun h _ he => h.part he, fun h => .intro _ (by rw [ownRanges, hop]; nofun) h⟩

theorem rangesIn_conjunction {es : List Expr} : (conjunction es).RangesIn p ↔ ∀ e ∈ es, e.RangesIn p := by
  match es with
  | [] => exact rangesIn_apply rfl
  | [e] => exact List.forall_mem_singleton.symm
  | e :: f :: rest => exact rangesIn_apply rfl

theorem rangesIn_conjuncts : (∀ c ∈ e.conjuncts, c.RangesIn p) ↔ e.RangesIn p := by
  induction e using conjunction_induction with
  | and es ih =>
    rw [rangesIn_apply rfl, conjuncts_and, List.forall_mem_flatMap]
    exact forall₂_congr ih
  | other e he => rw [he, List.forall_mem_singleton]

/-- Every range of the tree can be stored. -/
abbrev Storable (e : Expr) : Prop := e.RangesIn KeyRange.Storable

end Expr

end JoinPlanner
