import JoinPlanner.Proofs.Predicate.Posed
import JoinPlanner.Proofs.Rows.Basic

/-!
# Hoisting out of outer joins

A conjunct of the condition of an outer join that reads nothing of the right branch is applied apart
from the join. So a left row that fails it is dropped, where the join under the whole condition extends
it with NULLs: what the parts compute is the outer join of the left rows that satisfy the hoisted conjuncts
(`OuterJoin.rowsApart_eq`).
-/

namespace JoinPlanner

namespace Row

variable {tables : TableSet} {p q : Row → Bool} {l r : Multiset Row} {a : Row}

theorem leftJoin_cons : leftJoin tables p (a ::ₘ l) r = extend tables p r a + leftJoin tables p l r :=
  Multiset.cons_bind a l _

theorem card_extend_pos : 0 < (extend tables p r a).card := by
  simp only [extend]
  split
  · simp
  · next h => exact Nat.pos_of_ne_zero h

/-- What a left row decides, it decides of all that the join makes of it. -/
theorem eq_of_mem_extend (h : ∀ b ∈ r, q (a.merge b) = q a)
    (hnull : q (a.merge (nulls tables)) = q a) {c : Row} (hc : c ∈ extend tables p r a) : q c = q a := by
  simp only [extend] at hc
  split at hc
  · rw [Multiset.mem_singleton.1 hc, hnull]
  · obtain ⟨b, hb, rfl⟩ := Multiset.mem_map.1 (Multiset.mem_of_mem_filter hc)
    exact h b hb

theorem extend_congr {p' : Row → Bool} (h : ∀ b ∈ r, p (a.merge b) = p' (a.merge b)) :
    extend tables p r a = extend tables p' r a := by
  have hmerged : (r.map a.merge).filter (p ·) = (r.map a.merge).filter (p' ·) :=
    Multiset.filter_congr fun c hc => by
      obtain ⟨b, hb, rfl⟩ := Multiset.mem_map.1 hc
      rw [h b hb]
  simp only [extend, hmerged]

/-- A filter of the left rows above an outer join, as a filter below it. -/
theorem filter_leftJoin (h : ∀ a ∈ l, ∀ b ∈ r, q (a.merge b) = q a)
    (hnull : ∀ a ∈ l, q (a.merge (nulls tables)) = q a) :
    (leftJoin tables p l r).filter (q ·) = leftJoin tables (fun row => q row && p row) (l.filter (q ·)) r := by
  induction l using Multiset.induction_on with
  | empty => rfl
  | cons a l ih =>
    obtain ⟨ha, hl⟩ := Multiset.forall_mem_cons.1 h
    obtain ⟨hna, hnl⟩ := Multiset.forall_mem_cons.1 hnull
    have hrow : (extend tables p r a).filter (q ·) =
        if q a then extend tables (fun row => q row && p row) r a else 0 := by
      split
      · next hq =>
        rw [Multiset.filter_eq_self.2 fun c hc => (eq_of_mem_extend ha hna hc).trans hq]
        exact extend_congr fun b hb => by rw [ha b hb, hq, Bool.true_and]
      · next hq => exact Multiset.filter_eq_nil.2 fun c hc => by rwa [eq_of_mem_extend ha hna hc]
    rw [leftJoin_cons, Multiset.filter_add, ih hl hnl, hrow, Multiset.filter_cons]
    split
    · rw [Multiset.singleton_add, leftJoin_cons]
    · rw [zero_add, zero_add]

theorem card_le_card_leftJoin : l.card ≤ (leftJoin tables p l r).card := by
  induction l using Multiset.induction_on with
  | empty => simp
  | cons a l ih =>
    have hrow : 0 < (extend tables p r a).card := card_extend_pos
    rw [leftJoin_cons, Multiset.card_add, Multiset.card_cons]
    omega

/-- No left row of an outer join may be left out. -/
theorem leftJoin_filter_eq_iff :
    leftJoin tables p (l.filter (q ·)) r = leftJoin tables p l r ↔ ∀ a ∈ l, q a = true := by
  constructor
  · intro h
    have hsplit : leftJoin tables p l r = leftJoin tables p (l.filter (q ·)) r +
        leftJoin tables p (l.filter (¬q · = true)) r := by
      rw [leftJoin, leftJoin, leftJoin, ← Multiset.add_bind, Multiset.filter_add_not]
    rw [← h] at hsplit
    have hnone : leftJoin tables p (l.filter (¬q · = true)) r = 0 := by
      simpa using hsplit
    have hcard : (l.filter (¬q · = true)).card ≤ (leftJoin tables p (l.filter (¬q · = true)) r).card :=
      card_le_card_leftJoin
    rw [hnone, Multiset.card_zero, Nat.le_zero, Multiset.card_eq_zero] at hcard
    intro a ha
    simpa using Multiset.filter_eq_nil.1 hcard a ha
  · intro h
    rw [Multiset.filter_eq_self.2 h]

end Row

open Predicate

namespace OuterJoin

variable (j : OuterJoin) (call : String → List Value → Option Value) (l r : Multiset Row)

/-- The predicates that the condition of the outer join comes to. -/
def pool : List Predicate := propagate [j] []

/-- Whether a row satisfies what stays with the join. -/
def attachedHolds (row : Row) : Bool :=
  (j.pool.filter (·.exclusive)).all fun p => p.condition.holds (row.valuation call)

/-- Whether a row satisfies what is hoisted out of the join. -/
def hoistedHolds (row : Row) : Bool :=
  (j.pool.filter (!·.exclusive)).all fun p => p.condition.holds (row.valuation call)

/-- Whether a row satisfies the condition of the join. -/
def conditionHolds (row : Row) : Bool := j.on.all fun e => e.simplify.holds (row.valuation call)

/-- The outer join under its whole condition. -/
def rowsWhole : Multiset Row := Row.leftJoin j.right (j.conditionHolds call) l r

/-- The outer join under what stays with it, filtered by what is hoisted. -/
def rowsApart : Multiset Row :=
  (Row.leftJoin j.right (j.attachedHolds call) l r).filter (j.hoistedHolds call ·)

variable {j call l r}

theorem pool_eq : j.pool = (({} : Query).predicates { outerJoins := [j] }) := rfl

theorem pool_filter_exclusive : j.pool.filter (·.exclusive) = [j.toPredicate] := by
  rw [pool_eq, Query.predicates_filter_exclusive]
  rfl

theorem attachedHolds_eq (row : Row) :
    j.attachedHolds call row = j.attached.all fun e => e.holds (row.valuation call) := by
  rw [attachedHolds, pool_filter_exclusive, List.all_cons, List.all_nil, Bool.and_true]
  show j.condition.holds _ = _
  rw [← Expr.all_termsOf, termsOf_condition]

theorem hoisted_perm :
    ((j.pool.filter (!·.exclusive)).flatMap fun p => termsOf p.condition).Perm j.hoisted := by
  have hpool : (j.pool.flatMap fun p => termsOf p.condition).Perm j.terms := by
    have hconditions : ({} : Query).filter.toList ++ JoinGraph.conditions { outerJoins := [j] } =
        j.on.toList := List.flatMap_singleton _ _
    have hall := Query.predicates_terms_perm {} { outerJoins := [j] }
    rwa [hconditions, ← terms_eq] at hall
  have hsplit := (List.filter_append_perm (·.exclusive) j.pool).flatMap_right fun p => termsOf p.condition
  rw [List.flatMap_append, pool_filter_exclusive, List.flatMap_singleton] at hsplit
  have hattached : termsOf j.toPredicate.condition = j.attached := j.termsOf_condition
  rw [hattached] at hsplit
  have hterms : (j.attached ++ j.hoisted).Perm j.terms :=
    List.perm_append_comm.trans (List.filter_append_perm j.hoists j.terms)
  exact (List.perm_append_left_iff j.attached).1 ((hsplit.trans hpool).trans hterms.symm)

theorem hoistedHolds_eq (row : Row) :
    j.hoistedHolds call row = j.hoisted.all fun e => e.holds (row.valuation call) := by
  rw [hoistedHolds, ← hoisted_perm.all_eq, List.all_flatMap]
  simp only [Expr.all_termsOf]

theorem conditionHolds_eq (row : Row) :
    j.conditionHolds call row = (j.hoistedHolds call row && j.attachedHolds call row) := by
  have hterms : (j.hoisted ++ j.attached).Perm j.terms := List.filter_append_perm j.hoists j.terms
  rw [hoistedHolds_eq, attachedHolds_eq, ← List.all_append, hterms.all_eq, terms_eq, List.all_flatMap]
  simp only [Expr.all_termsOf]
  rw [conditionHolds]
  cases j.on <;> simp

/-- A hoisted conjunct does not read the right row. -/
theorem hoistedHolds_merge {a b : Row} (hb : ∀ t, (b t).isSome = true → t ∈ j.right) :
    j.hoistedHolds call (a.merge b) = j.hoistedHolds call a := by
  have hterm : ∀ e ∈ j.hoisted, e.holds ((a.merge b).valuation call) = e.holds (a.valuation call) := by
    intro e he
    have hhoist := List.mem_filter.1 he
    rw [hoists, Bool.and_eq_true, SortedSet.isDisjoint_iff] at hhoist
    have hvalue : e.evalIn ((a.merge b).valuation call) = e.evalIn (a.valuation call) := by
      refine Expr.evalIn_congr rfl fun c hc => congrArg (Option.map _) ?_
      have hnone : b c.table = none := by
        have hright := hhoist.2.2 c.table (Expr.mem_tables.2 ⟨c, hc, rfl⟩)
        simpa using mt (hb c.table) hright
      rw [Row.merge, hnone, Option.or_none]
    rw [Expr.holds, Expr.holds, hvalue]
  rw [hoistedHolds_eq, hoistedHolds_eq, Bool.eq_iff_iff, List.all_eq_true, List.all_eq_true]
  exact forall₂_congr fun e he => by rw [hterm e he]

/-- The outer join in parts is the outer join, under its whole condition, of the left rows that satisfy
what is hoisted; it is that of all left rows if and only if every one of them does. -/
theorem rowsApart_eq (j : OuterJoin) (call : String → List Value → Option Value) (l r : Multiset Row)
    (hr : ∀ b ∈ r, ∀ t, (b t).isSome = true → t ∈ j.right) :
    j.rowsApart call l r = j.rowsWhole call (l.filter (j.hoistedHolds call ·)) r ∧
    (j.rowsApart call l r = j.rowsWhole call l r ↔ ∀ a ∈ l, j.hoistedHolds call a = true) := by
  have hnulls : ∀ t, (Row.nulls j.right t).isSome = true → t ∈ j.right := by
    intro t ht
    unfold Row.nulls at ht
    split at ht
    · next h => exact SortedSet.contains_iff.1 h
    · cases ht
  have heq : j.rowsApart call l r = j.rowsWhole call (l.filter (j.hoistedHolds call ·)) r := by
    have hwhole : j.conditionHolds call = fun row => j.hoistedHolds call row && j.attachedHolds call row :=
      funext conditionHolds_eq
    rw [rowsApart, rowsWhole, hwhole]
    exact Row.filter_leftJoin (fun a _ b hb => hoistedHolds_merge (hr b hb))
      fun a _ => hoistedHolds_merge hnulls
  refine ⟨heq, ?_⟩
  rw [heq]
  exact Row.leftJoin_filter_eq_iff

/-- `a LEFT JOIN b ON a.x = b.x AND a.x = a.y`. -/
def testedJoin : OuterJoin where
  id := 0
  left := .singleton ⟨none, "a"⟩
  right := .singleton ⟨none, "b"⟩
  on :=
    let column (t c : String) : Expr := .column ⟨⟨none, t⟩, c⟩
    some (.apply .and [.equals (column "a" "x") (column "b" "x"), .equals (column "a" "x") (column "a" "y")])
  inside := ∅

/-- The tree of the join. -/
def testedTree : Expr :=
  .join .leftOuter (.relation ⟨none, "a"⟩ ⟨none, "a"⟩) (.relation ⟨none, "b"⟩ ⟨none, "b"⟩) testedJoin.on {}

/-- A row of an alias with 1 in every column but `y`. -/
def rowOf (name : String) (y : Int64) : Row :=
  .single ⟨none, name⟩ fun c => if c = "y" then .int y else .int 1

/-- The left row with 2 in `y` matches no right row: the join keeps it, and its parts drop it. -/
theorem rowsApart_ne_rowsWhole :
    (JoinGraph.ofTree? (some testedTree)).toOption.map (·.outerJoins) = some [testedJoin] ∧
    testedJoin.rowsApart (fun _ _ => none) {rowOf "a" 2} {rowOf "b" 2} ≠
      testedJoin.rowsWhole (fun _ _ => none) {rowOf "a" 2} {rowOf "b" 2} := by
  have hapart : (testedJoin.rowsApart (fun _ _ => none) {rowOf "a" 2} {rowOf "b" 2}).card = 0 := by
    decide +kernel
  have hwhole : (testedJoin.rowsWhole (fun _ _ => none) {rowOf "a" 2} {rowOf "b" 2}).card = 1 := by
    decide +kernel
  refine ⟨rfl, fun h => ?_⟩
  rw [h, hwhole] at hapart
  cases hapart

theorem rowsApart_eq_of_satisfied :
    testedJoin.rowsApart (fun _ _ => none) {rowOf "a" 1} {rowOf "b" 2} =
      testedJoin.rowsWhole (fun _ _ => none) {rowOf "a" 1} {rowOf "b" 2} := by
  refine (rowsApart_eq testedJoin (fun _ _ => none) {rowOf "a" 1} {rowOf "b" 2} ?_).2.2 ?_
  · intro b hb t ht
    obtain rfl := Multiset.mem_singleton.1 hb
    have hcovers := (Row.covers_single ⟨none, "b"⟩ _ t).1 ht
    exact SortedSet.mem_singleton.2 (List.mem_singleton.1 hcovers)
  · intro a ha
    obtain rfl := Multiset.mem_singleton.1 ha
    decide +kernel

end OuterJoin

end JoinPlanner
