import JoinPlanner.Expr.Simplify

/-!
# Simplification never fails

`Expr.simplify?` simplifies with the range operations that check the widths of their operands and refuse
an empty key, and stops at their first error. It never meets one: a comparison has a key of one value, and
only ranges of one width are merged, so that it is `Expr.simplify` (`Expr.simplify?_eq_ok`).
-/

namespace JoinPlanner

namespace Junction

def combine? : Junction → KeyRange → KeyRange → Except RangeError KeyRange
  | all => KeyRange.inter
  | any => KeyRange.union

theorem combine?_eq_ok (j : Junction) {r s : KeyRange} (h : r.width = s.width) :
    j.combine? r s = .ok (j.combine r s) := by
  cases j <;> simp [combine?, combine, KeyRange.inter, KeyRange.union, h]

end Junction

namespace Expr

def simplifyComparison? (op : Comparison) (left right : Expr) : Except RangeError Expr :=
  match columnComparison? op left right with
  | some (c, op, v) =>
    if v.isNull && !op.seesNull then return literal .null
    else return rangeOrTruth c (← KeyRange.ofComparison op [v])
  | none => return foldConstant (compare op left right)

def mergeRange? (j : Junction) (c : ColumnRef) (range : KeyRange) (term : Expr) :
    List Expr → Except RangeError (List Expr)
  | [] => return [term]
  | e :: rest => do
    match e.rangeTerm? with
    | some (c', range') =>
      if c' == c && range'.width == range.width && range'.sameClass range then
        return rangeOrTruth c (← j.combine? range' range) :: rest
      else return e :: (← mergeRange? j c range term rest)
    | none => return e :: (← mergeRange? j c range term rest)

def mergeTerm? (j : Junction) (merged : List Expr) (term : Expr) : Except RangeError (List Expr) :=
  match term.rangeTerm? with
  | some (c, range) => mergeRange? j c range term merged
  | none => return merged ++ [term]

/-- The junction of merged terms. -/
def closeJunction (j : Junction) (merged : List Expr) : Expr :=
  if merged.any (isTruth !j.neutral) then bool !j.neutral
  else
    match merged.filter (!isTruth j.neutral ·) with
    | [] => bool j.neutral
    | [e] => e
    | rest => foldConstant (apply j.op rest)

def simplifyJunction? (j : Junction) (args : List Expr) : Except RangeError Expr := do
  let terms := args.flatMap fun e => (j.terms? e).getD [e]
  return closeJunction j (← terms.foldlM (mergeTerm? j) [])

def simplifyNode? : Expr → Except RangeError Expr
  | apply .and args => simplifyJunction? .all args
  | apply .or args => simplifyJunction? .any args
  | apply (.compare op) [left, right] => simplifyComparison? op left right
  | apply (.compare op) args => return apply (.compare op) args
  | apply op args => return foldConstant (apply op args)
  | e => return e

/-- Simplification with checked operations on ranges. -/
def simplify? (e : Expr) : Except RangeError Expr := e.transformM (fun _ => pure .enter) simplifyNode?

theorem simplifyComparison?_eq_ok (op : Comparison) (left right : Expr) :
    simplifyComparison? op left right = .ok (simplifyComparison op left right) := by
  rw [simplifyComparison?, simplifyComparison]
  cases columnComparison? op left right with
  | none => rfl
  | some t =>
    obtain ⟨c, op, v⟩ := t
    dsimp only
    by_cases h : (v.isNull && !op.seesNull) = true
    · rw [if_pos h, if_pos h]
      rfl
    · rw [if_neg h, if_neg h]
      rfl

theorem mergeRange?_eq_ok (j : Junction) (c : ColumnRef) (range : KeyRange) (term : Expr) (merged : List Expr) :
    mergeRange? j c range term merged = .ok (mergeRange j c range term merged) := by
  induction merged with
  | nil => rfl
  | cons e rest ih =>
    rw [mergeRange?, mergeRange]
    cases e.rangeTerm? with
    | none =>
      rw [ih]
      rfl
    | some t =>
      obtain ⟨c', range'⟩ := t
      dsimp only
      split
      · next hmerge =>
        simp only [Bool.and_eq_true, beq_iff_eq] at hmerge
        rw [j.combine?_eq_ok hmerge.1.2]
        rfl
      · rw [ih]
        rfl

theorem mergeTerm?_eq_ok (j : Junction) (merged : List Expr) (term : Expr) :
    mergeTerm? j merged term = .ok (mergeTerm j merged term) := by
  rw [mergeTerm?, mergeTerm]
  cases term.rangeTerm? with
  | none => rfl
  | some t => exact mergeRange?_eq_ok ..

theorem simplifyJunction?_eq_ok (j : Junction) (args : List Expr) :
    simplifyJunction? j args = .ok (simplifyJunction j args) := by
  have hfold (terms merged : List Expr) :
      terms.foldlM (mergeTerm? j) merged = .ok (terms.foldl (mergeTerm j) merged) := by
    induction terms generalizing merged with
    | nil => rfl
    | cons term rest ih =>
      rw [List.foldlM_cons, List.foldl_cons, mergeTerm?_eq_ok, ← ih]
      rfl
  rw [simplifyJunction?, hfold]
  rfl

theorem simplifyNode?_eq_ok (e : Expr) : e.simplifyNode? = .ok e.simplifyNode := by
  unfold simplifyNode?
  split
  · exact simplifyJunction?_eq_ok .all _
  · exact simplifyJunction?_eq_ok .any _
  · exact simplifyComparison?_eq_ok ..
  · next h => rw [simplifyNode.eq_4 _ _ h]; rfl
  · next hand hor hpair hcompare => rw [simplifyNode.eq_5 _ _ hand hor hpair hcompare]; rfl
  · next hand hor hpair hcompare happly => rw [simplifyNode.eq_6 _ hand hor hpair hcompare happly]; rfl

/-- A walk none of whose steps fails does not fail. -/
theorem transformM_eq_ok {up : Expr → Except RangeError Expr} {f : Expr → Expr} (hup : ∀ e, up e = .ok (f e))
    (e : Expr) : e.transformM (fun _ => pure .enter) up =
      .ok (Id.run (e.transformM (fun _ => pure .enter) fun node => pure (f node))) := by
  refine transformM.induct
    (fun e => e.transformM (fun _ => pure .enter) up =
      .ok (Id.run (e.transformM (fun _ => pure .enter) fun node => pure (f node))))
    (fun on => transformOption (fun _ => pure .enter) up on =
      .ok (Id.run (transformOption (fun _ => pure .enter) (fun node => pure (f node)) on)))
    (fun es => transformList (fun _ => pure .enter) up es =
      .ok (Id.run (transformList (fun _ => pure .enter) (fun node => pure (f node)) es)))
    ?_ ?_ ?_ ?_ ?_ ?_ ?_ ?_ ?_ ?_ ?_ e
  · exact fun c => hup _
  · exact fun v => hup _
  · exact fun t => hup _
  · intro name source ih
    rw [transformM, ih]
    exact hup _
  · intro op args ih
    rw [transformM, ih]
    exact hup _
  · intro kind child ih
    rw [transformM, ih]
    exact hup _
  · intro kind left right on hints ihl ihr ihon
    rw [transformM, ihl, ihr, ihon]
    exact hup _
  · rfl
  · intro e rest ih ihrest
    rw [transformList, ih, ihrest]
    rfl
  · rfl
  · intro e ih
    rw [transformOption, ih]
    rfl

theorem simplify?_eq_ok (e : Expr) : e.simplify? = .ok e.simplify :=
  transformM_eq_ok simplifyNode?_eq_ok e

end Expr

end JoinPlanner
