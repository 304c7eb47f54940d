import JoinPlanner.Proofs.Expr.Truth
import JoinPlanner.Proofs.Value.Order

/-!
# The value of a conjunction

How the terms of a conjunction are nested makes no difference to its value, be it true, false or unknown: a filter
that is made of comparisons has the value of the conjunction of these (`Expr.evalIn_conjuncts`). Nor does it make a
difference on which side of a comparison an operand stands (`Expr.evalIn_compare_swap`).
-/

namespace JoinPlanner

namespace Value

variable {xs ys : List Value}

theorem conjunction_eq_true : conjunction xs = bool true ↔ ∀ x ∈ xs, x = bool true :=
  Junction.value_eq_neutral (j := .all)

theorem conjunction_eq_false : conjunction xs = bool false ↔ bool false ∈ xs :=
  (Junction.value_eq_absorbing (j := .all)).trans exists_eq_right

theorem conjunction_cases (xs : List Value) :
    conjunction xs = bool true ∨ conjunction xs = bool false ∨ conjunction xs = null := by
  unfold conjunction
  split
  · exact .inr (.inl rfl)
  · split
    · exact .inl rfl
    · exact .inr (.inr rfl)

/-- Two conjunctions are equal if they are true together and false together. -/
theorem conjunction_congr (htrue : (∀ x ∈ xs, x = bool true) ↔ ∀ y ∈ ys, y = bool true)
    (hfalse : bool false ∈ xs ↔ bool false ∈ ys) : conjunction xs = conjunction ys := by
  rw [← conjunction_eq_true, ← conjunction_eq_true] at htrue
  rw [← conjunction_eq_false, ← conjunction_eq_false] at hfalse
  rcases conjunction_cases xs with h | h | h
  · rw [h, htrue.1 h]
  · rw [h, hfalse.1 h]
  · rcases conjunction_cases ys with h' | h' | h'
    · exact (htrue.2 h').trans h'.symm
    · exact (hfalse.2 h').trans h'.symm
    · rw [h, h']

theorem conjunction_cons (x : Value) (ys : List Value) :
    conjunction (x :: ys) = conjunction [x, conjunction ys] := by
  apply conjunction_congr
  · simp [conjunction_eq_true]
  · simp [← conjunction_eq_false, eq_comm (a := bool false)]

theorem conjunction_append (xs ys : List Value) :
    conjunction (xs ++ ys) = conjunction [conjunction xs, conjunction ys] := by
  apply conjunction_congr
  · simp [conjunction_eq_true, or_imp, forall_and]
  · simp [← conjunction_eq_false, eq_comm (a := bool false)]

/-- A comparison is true, false or unknown, and is all that a conjunction of it alone says. -/
theorem conjunction_compareWith (op : Comparison) (a b : Value) :
    conjunction [compareWith op a b] = compareWith op a b := by
  have hbool (b : Bool) : conjunction [bool b] = bool b := by cases b <;> rfl
  unfold compareWith
  split
  · exact hbool _
  · exact hbool _
  · split
    · rfl
    · exact hbool _

end Value

namespace Expr

variable {v : Valuation} {e : Expr} {es fs : List Expr}

theorem evalList_append :
    evalList v (es ++ fs) = (evalList v es).bind fun xs => (evalList v fs).map (xs ++ ·) := by
  induction es with
  | nil => simp [evalList]
  | cons e es ih =>
    rw [List.cons_append, evalList_cons, evalList_cons, ih]
    cases e.evalIn v <;> cases evalList v es <;> cases evalList v fs <;> rfl

theorem evalIn_compare_eq (op : Comparison) (a b : Expr) : (compare op a b).evalIn v =
    (a.evalIn v).bind fun x => (b.evalIn v).map fun y => Value.compareWith op x y := by
  rw [compare, evalIn_apply (by simp), evalList_cons, evalList_cons]
  cases a.evalIn v <;> cases b.evalIn v <;> rfl

/-- A comparison read from its other side has the same value. -/
theorem evalIn_compare_swap (op : Comparison) (a b : Expr) :
    (compare op.swap a b).evalIn v = (compare op b a).evalIn v := by
  rw [evalIn_compare_eq, evalIn_compare_eq]
  cases a.evalIn v <;> cases b.evalIn v <;> simp [Value.compareWith_swap]

/-- Terms may be replaced by their conjuncts, if each has the value that its conjuncts have together. -/
theorem evalList_flatMap_conjuncts (h : ∀ e ∈ es, e.evalIn v = (evalList v e.conjuncts).map Value.conjunction) :
    (evalList v (es.flatMap conjuncts)).map Value.conjunction = (evalList v es).map Value.conjunction := by
  induction es with
  | nil => rfl
  | cons e es ih =>
    obtain ⟨he, hes⟩ := List.forall_mem_cons.1 h
    have hrest := ih hes
    rw [List.flatMap_cons, evalList_append, evalList_cons, he]
    cases evalList v e.conjuncts with
    | none => rfl
    | some xs =>
      cases hys : evalList v es with
      | none =>
        rw [hys] at hrest
        rw [Option.map_eq_none_iff.1 hrest]
        rfl
      | some ys =>
        rw [hys] at hrest
        obtain ⟨zs, hzs, hconj⟩ := Option.map_eq_some_iff.1 hrest
        rw [hzs]
        change some (Value.conjunction (xs ++ zs)) = some (Value.conjunction (Value.conjunction xs :: ys))
        rw [Value.conjunction_cons, Value.conjunction_append, hconj]

/-- A filter whose conjuncts are comparisons has the value of their conjunction, however they are nested. -/
theorem evalIn_conjuncts (h : ∀ c ∈ e.conjuncts, ∃ op a b, c = compare op a b) :
    e.evalIn v = (evalList v e.conjuncts).map Value.conjunction := by
  induction e using conjunction_induction with
  | and es ih =>
    rw [conjuncts_and] at h ⊢
    have hes : ∀ e ∈ es, e.evalIn v = (evalList v e.conjuncts).map Value.conjunction :=
      fun e he => ih e he fun c hc => h c (List.mem_flatMap.2 ⟨e, he, hc⟩)
    rw [evalList_flatMap_conjuncts hes]
    exact evalIn_junction (j := .all)
  | other e he =>
    obtain ⟨op, a, b, rfl⟩ := h e (he ▸ List.mem_singleton_self e)
    rw [he, evalList_cons, evalIn_compare_eq]
    cases a.evalIn v with
    | none => rfl
    | some x =>
      cases b.evalIn v with
      | none => rfl
      | some y => exact congrArg some (Value.conjunction_compareWith op x y).symm

end Expr

end JoinPlanner
