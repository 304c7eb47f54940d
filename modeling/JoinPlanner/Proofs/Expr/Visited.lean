import JoinPlanner.Expr.Equality
import JoinPlanner.Proofs.Expr.SimplifyChecked
import JoinPlanner.Proofs.Range.Equality

/-!
# The nodes of a walk

A walk visits the nodes of a tree through `Expr.children`: `Expr.Throughout p e` says that every one of them
satisfies `p`, and `Expr.size` counts them. A node is simplified after its children (`Expr.simplify_eq`). Equal
trees have equally many nodes (`Expr.size_congr`), and every tree equals itself.
-/

namespace JoinPlanner

deriving instance ReflBEq for AccessPath, JoinHints, FunctionOp

namespace Expr

variable {e f : Expr} {es fs : List Expr} {p q : Expr → Prop}

theorem sizeOf_lt_of_mem_children (h : f ∈ e.children) : sizeOf f < sizeOf e := by
  cases e with
  | column _ | literal _ | table _ => cases h
  | aliased name source =>
    obtain rfl := List.mem_singleton.1 h
    simp
  | apply op args =>
    have := List.sizeOf_lt_of_mem (show f ∈ args from h)
    simp
    omega
  | filter kind child =>
    obtain rfl := List.mem_singleton.1 h
    simp
  | join kind left right on hints =>
    rcases List.mem_cons.1 h with rfl | h
    · simp
      omega
    · rcases List.mem_cons.1 h with rfl | h
      · simp
        omega
      · obtain rfl := Option.mem_toList.1 h
        simp
        omega

/-- A property of all expressions from the children of a node. -/
theorem children_induction (h : ∀ e, (∀ f ∈ e.children, p f) → p e) (e : Expr) : p e :=
  h e fun f _ => children_induction h f
termination_by e
decreasing_by exact sizeOf_lt_of_mem_children ‹_›

def mapChildren (g : Expr → Expr) : Expr → Expr
  | aliased name source => aliased name (g source)
  | apply op args => apply op (args.map g)
  | filter kind child => filter kind (g child)
  | join kind left right on hints => join kind (g left) (g right) (on.map g) hints
  | e => e

theorem children_mapChildren (g : Expr → Expr) (e : Expr) : (e.mapChildren g).children = e.children.map g := by
  cases e with
  | join kind left right on hints => cases on <;> rfl
  | _ => rfl

theorem mapChildren_eq_self {g : Expr → Expr} (h : ∀ f ∈ e.children, g f = f) : e.mapChildren g = e := by
  cases e with
  | column _ | literal _ | table _ => rfl
  | aliased name source => exact congrArg _ (h source (List.mem_singleton_self _))
  | apply op args => exact congrArg _ ((List.map_congr_left h).trans (List.map_id args))
  | filter kind child => exact congrArg _ (h child (List.mem_singleton_self _))
  | join kind left right on hints =>
    have hon : on.map g = on := by
      cases on with
      | none => rfl
      | some p => exact congrArg some (h p (by simp [children]))
    rw [mapChildren, h left (by simp [children]), h right (by simp [children]), hon]

theorem simplify_eq (e : Expr) : e.simplify = (e.mapChildren simplify).simplifyNode := by
  cases e with
  | apply op args =>
    have hlist : Id.run (transformList (fun _ => pure .enter) (fun node => pure node.simplifyNode) args) =
        args.map simplify := by
      induction args with
      | nil => rfl
      | cons e rest ih =>
        rw [List.map_cons, ← ih]
        rfl
    rw [mapChildren, ← hlist]
    rfl
  | join kind left right on hints => cases on <;> rfl
  | _ => rfl

/-- Every node that a walk visits satisfies `p`. -/
inductive Throughout (p : Expr → Prop) : Expr → Prop
  | intro (e : Expr) (here : p e) (below : ∀ f ∈ e.children, Throughout p f) : Throughout p e

namespace Throughout

theorem here (h : e.Throughout p) : p e := by
  cases h
  assumption

theorem child (h : e.Throughout p) (hf : f ∈ e.children) : f.Throughout p := by
  cases h with
  | intro _ _ below => exact below f hf

theorem mono (h : e.Throughout p) (hpq : ∀ f, p f → q f) : e.Throughout q := by
  induction h with
  | intro e here _ ih => exact .intro e (hpq e here) ih

end Throughout

mutual

/-- The number of nodes that a walk visits. -/
def size : Expr → ℕ
  | column _ | literal _ | table _ => 1
  | aliased _ source => source.size + 1
  | apply _ args => sizeOfList args + 1
  | filter _ child => child.size + 1
  | join _ left right on _ => left.size + (right.size + sizeOfOption on) + 1

def sizeOfList : List Expr → ℕ
  | [] => 0
  | e :: rest => e.size + sizeOfList rest

def sizeOfOption : Option Expr → ℕ
  | none => 0
  | some e => e.size

end

theorem sizeOfList_eq (es : List Expr) : sizeOfList es = (es.map size).sum := by
  induction es with
  | nil => rfl
  | cons e rest ih => rw [sizeOfList, ih, List.map_cons, List.sum_cons]

theorem size_eq (e : Expr) : e.size = (e.children.map size).sum + 1 := by
  cases e with
  | apply op args => rw [size, sizeOfList_eq, children]
  | join kind left right on hints => cases on <;> simp [size, children, sizeOfOption]
  | _ => simp [size, children]

mutual

theorem size_congr : ∀ {e f : Expr}, e.beq f = true → e.size = f.size
  | e, f, h => by
    cases e <;> cases f <;> simp only [Expr.beq, Bool.and_eq_true, Bool.false_eq_true] at h
    case column.column | literal.literal | table.table => rfl
    case aliased.aliased => rw [size, size, size_congr h.2]
    case apply.apply => rw [size, size, sizeOfList_congr h.2]
    case filter.filter => rw [size, size, size_congr h.2]
    case join.join => rw [size, size, size_congr h.1.1.1.2, size_congr h.1.1.2, sizeOfOption_congr h.1.2]

theorem sizeOfList_congr : ∀ {es fs : List Expr}, beqList es fs = true → sizeOfList es = sizeOfList fs
  | [], [], _ => rfl
  | [], _ :: _, h | _ :: _, [], h => by simp [beqList] at h
  | e :: es, f :: fs, h => by
    rw [beqList, Bool.and_eq_true] at h
    rw [sizeOfList, sizeOfList, size_congr h.1, sizeOfList_congr h.2]

theorem sizeOfOption_congr : ∀ {e f : Option Expr}, beqOption e f = true → sizeOfOption e = sizeOfOption f
  | none, none, _ => rfl
  | none, some _, h | some _, none, h => by simp [beqOption] at h
  | some e, some f, h => by
    rw [beqOption] at h
    exact size_congr h

end

mutual

protected theorem beq_refl : ∀ e : Expr, e.beq e = true
  | column _ | table _ => by simp [Expr.beq]
  | literal v => by
    rw [Expr.beq]
    exact Value.beq_iff.2 rfl
  | aliased n s => by simp [Expr.beq, s.beq_refl]
  | apply op args => by simp [Expr.beq, beqList_refl args]
  | filter kind child => by simp [Expr.beq, beqFilter_refl kind, child.beq_refl]
  | join kind l r on hints => by simp [Expr.beq, l.beq_refl, r.beq_refl, beqOption_refl on]

theorem beqList_refl : ∀ es : List Expr, beqList es es = true
  | [] => by simp [beqList]
  | e :: rest => by simp [beqList, e.beq_refl, beqList_refl rest]

theorem beqOption_refl : ∀ e : Option Expr, beqOption e e = true
  | none => by simp [beqOption]
  | some e => by simp [beqOption, e.beq_refl]

theorem beqFilter_refl : ∀ kind : FilterKind Expr, beqFilter kind kind = true
  | .select p path => by simp [beqFilter, p.beq_refl]
  | .sort keys path => by simp [beqFilter, beqKeys_refl keys]
  | .guard p => by simp [beqFilter, p.beq_refl]
  | .computed => by simp [beqFilter]
  | .aggregate es => by simp [beqFilter, beqList_refl es]

theorem beqKeys_refl : ∀ keys : List (SortKey Expr), beqKeys keys keys = true
  | [] => by simp [beqKeys]
  | k :: rest => by simp [beqKeys, beqKey_refl k, beqKeys_refl rest]

theorem beqKey_refl : ∀ key : SortKey Expr, beqKey key key = true
  | ⟨e, ascending⟩ => by simp [beqKey, e.beq_refl]

end

instance : ReflBEq Expr := ⟨Expr.beq_refl _⟩

theorem size_eq_of_beq (h : (e == f) = true) : e.size = f.size := size_congr h

end Expr

end JoinPlanner
