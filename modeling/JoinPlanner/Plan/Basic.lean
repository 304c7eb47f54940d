import JoinPlanner.Cost.Basic
import JoinPlanner.Expr.Basic

/-!
# Plans

A `Plan` is an operator tree whose nodes carry their costs, once these are known. `Plan.ofExpr` and
`Plan.toExpr` pass between plans and bare trees; `toExpr_ofExpr` says that nothing is lost.
-/

namespace JoinPlanner

/-- An operator tree with the costs of its operators. A leaf is any node but a filter or a join. -/
inductive Plan (κ : Type)
  | leaf (expr : Expr) (cost : Option (Cost κ))
  | filter (kind : FilterKind Expr) (child : Plan κ) (cost : Option (Cost κ))
  | join (kind : JoinKind) (left right : Plan κ) (on : Option Expr) (hints : JoinHints)
      (cost : Option (Cost κ))
deriving Inhabited

namespace Plan
variable {κ : Type}

def ofExpr : Expr → Plan κ
  | .filter kind child => filter kind (ofExpr child) none
  | .join kind left right on hints => join kind (ofExpr left) (ofExpr right) on hints none
  | e => leaf e none

def toExpr : Plan κ → Expr
  | leaf e _ => e
  | filter kind child _ => .filter kind child.toExpr
  | join kind left right on hints _ => .join kind left.toExpr right.toExpr on hints

@[simp] theorem toExpr_ofExpr (e : Expr) : (ofExpr e : Plan κ).toExpr = e := by
  induction e using ofExpr.induct <;> simp_all [ofExpr, toExpr]

def cost? : Plan κ → Option (Cost κ)
  | leaf _ cost => cost
  | filter _ _ cost => cost
  | join _ _ _ _ _ cost => cost

def withCost (cost : Option (Cost κ)) : Plan κ → Plan κ
  | leaf e _ => leaf e cost
  | filter kind child _ => filter kind child cost
  | join kind left right on hints _ => join kind left right on hints cost

def clear : Plan κ → Plan κ
  | leaf e _ => leaf e none
  | filter kind child _ => filter kind child.clear none
  | join kind left right on hints _ => join kind left.clear right.clear on hints none

@[simp] theorem toExpr_clear (p : Plan κ) : p.clear.toExpr = p.toExpr := by
  induction p <;> simp_all [clear, toExpr]

def relations : Plan κ → TableSet
  | leaf e _ => e.relations
  | filter _ child _ => child.relations
  | join _ left right _ _ _ => left.relations ∪ right.relations

theorem relations_eq (p : Plan κ) : p.relations = p.toExpr.relations := by
  induction p <;> simp_all [relations, toExpr, Expr.relations]

end Plan

end JoinPlanner
