import JoinPlanner.Expr.Basic

/-!
# Transforming walks

`Expr.transformM` walks a tree depth first. The first function sees a node on the way down and says
whether the walk enters it; the second replaces it on the way up, after its children.
-/

namespace JoinPlanner

inductive Descent
  | enter
  | skip
deriving DecidableEq, Repr

namespace Expr
variable {m : Type → Type} [Monad m] (down : Expr → m Descent) (up : Expr → m Expr)

mutual

/-- Transforms a tree from its leaves up, except below the nodes that the walk does not enter. -/
def transformM : Expr → m Expr
  | column c => do
    let _ ← down (column c)
    up (column c)
  | literal v => do
    let _ ← down (literal v)
    up (literal v)
  | table t => do
    let _ ← down (table t)
    up (table t)
  | aliased name source => do
    match ← down (aliased name source) with
    | .skip => up (aliased name source)
    | .enter => up (aliased name (← transformM source))
  | apply op args => do
    match ← down (apply op args) with
    | .skip => up (apply op args)
    | .enter => up (apply op (← transformList args))
  | filter kind child => do
    match ← down (filter kind child) with
    | .skip => up (filter kind child)
    | .enter => up (filter kind (← transformM child))
  | join kind left right on hints => do
    match ← down (join kind left right on hints) with
    | .skip => up (join kind left right on hints)
    | .enter =>
      let left ← transformM left
      let right ← transformM right
      up (join kind left right (← transformOption on) hints)

def transformList : List Expr → m (List Expr)
  | [] => return []
  | e :: rest => do
    let e ← transformM e
    return e :: (← transformList rest)

def transformOption : Option Expr → m (Option Expr)
  | none => return none
  | some e => return some (← transformM e)

end

end Expr

end JoinPlanner
