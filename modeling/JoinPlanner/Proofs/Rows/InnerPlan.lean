import JoinPlanner.Proofs.Candidate.Conservation
import JoinPlanner.Proofs.Rows.Basic

/-!
# Plans of inner joins

A plan of inner and Cartesian joins over distinct aliases, each of whose predicates reads only relations
below it, has the rows of the product of its leaves that satisfy all its conditions
(`Expr.InnerPlan.rows_eq`): where in the plan a condition stands does not matter, and neither does the
shape of the plan.
-/

namespace JoinPlanner

namespace Expr

/-- The plans of inner joins over aliases, or over nothing. -/
inductive InnerPlan : Expr → Prop
  | aliased (name : TableName) (source : Expr) : InnerPlan (aliased name source)
  | join {kind : JoinKind} (hk : kind = .cartesian ∨ kind = .inner) {left right : Expr} (on : Option Expr)
      (hints : JoinHints) (hl : InnerPlan left) (hr : InnerPlan right) :
      InnerPlan (join kind left right on hints)
  | select (p : Expr) (path : Option AccessPath) {child : Expr} (h : InnerPlan child) :
      InnerPlan (filter (.select p path) child)
  | guard (p : Expr) {child : Expr} (h : InnerPlan child) : InnerPlan (filter (.guard p) child)
  | sort (keys : List (SortKey Expr)) (path : Option AccessPath) {child : Expr} (h : InnerPlan child) :
      InnerPlan (filter (.sort keys path) child)
  | singleRow : InnerPlan singleRow

namespace InnerPlan

variable {e : Expr} {db : Database} {call : String → List Value → Option Value} {names : List TableName}

theorem mem_relations (h : e.InnerPlan) {t : TableName} : t ∈ e.relations ↔ t ∈ e.leaves.map (·.1) := by
  induction h with
  | aliased name source => simp [relations, leaves]
  | join hk on hints hl hr ihl ihr => simp [relations, leaves, ihl, ihr]
  | select p path h ih => exact ih
  | guard p h ih => exact ih
  | sort keys path h ih => exact ih
  | singleRow => exact Iff.rfl

/-- An expression has its value in the row that covers what it reads. -/
theorem holds_merge_left {a b : Row} (ha : a.Covers names) (h : ∀ c ∈ e.columns, c.table ∈ names) :
    e.holds ((a.merge b).valuation call) = e.holds (a.valuation call) := by
  have hvalue : e.evalIn ((a.merge b).valuation call) = e.evalIn (a.valuation call) :=
    evalIn_congr rfl fun c hc => congrArg (Option.map _) (Row.merge_left ha (h c hc))
  rw [holds, holds, hvalue]

theorem holds_merge_right {a b : Row} (ha : a.Covers names) (h : ∀ c ∈ e.columns, c.table ∉ names) :
    e.holds ((a.merge b).valuation call) = e.holds (b.valuation call) := by
  have hvalue : e.evalIn ((a.merge b).valuation call) = e.evalIn (b.valuation call) :=
    evalIn_congr rfl fun c hc => congrArg (Option.map _) (Row.merge_right ha (h c hc))
  rw [holds, holds, hvalue]

/-- Every condition of a plan reads only relations of the plan. -/
theorem columns_conditions (h : e.InnerPlan) (hground : e.Grounded) :
    ∀ p ∈ e.conditions, ∀ c ∈ p.columns, c.table ∈ e.leaves.map (·.1) := by
  induction h with
  | aliased name source => simp [conditions]
  | join hk on hints hl hr ihl ihr =>
    obtain ⟨hgl, hgr, hon⟩ := hground
    intro p hp c hc
    rw [leaves, List.map_append, List.mem_append]
    simp only [conditions, List.mem_append, Option.mem_toList] at hp
    rcases hp with hp | hp | hp
    · rw [← hl.mem_relations, ← hr.mem_relations, ← SortedSet.mem_union]
      exact hon p hp c hc
    · exact .inl (ihl hgl p hp c hc)
    · exact .inr (ihr hgr p hp c hc)
  | select p path h ih =>
    refine List.forall_mem_cons.2 ⟨fun c hc => ?_, ih hground.1⟩
    exact h.mem_relations.1 (hground.2 c hc)
  | guard p h ih =>
    refine List.forall_mem_cons.2 ⟨fun c hc => ?_, ih hground.1⟩
    exact h.mem_relations.1 (hground.2 c hc)
  | sort keys path h ih => exact ih hground
  | singleRow => simp [Expr.singleRow, conditions]

/-- The conditions of each input of a join stand as well above the join. -/
theorem all_conditions_merge {left right : Expr} (hl : left.InnerPlan) (hr : right.InnerPlan)
    (hgl : left.Grounded) (hgr : right.Grounded)
    (hdisjoint : (left.leaves.map (·.1)).Disjoint (right.leaves.map (·.1))) {a b : Row}
    (ha : a.Covers (left.leaves.map (·.1))) :
    (left.conditions ++ right.conditions).all (holds ((a.merge b).valuation call)) =
      (left.conditions.all (holds (a.valuation call)) && right.conditions.all (holds (b.valuation call))) := by
  have hleft : ∀ p ∈ left.conditions, p.holds ((a.merge b).valuation call) = p.holds (a.valuation call) :=
    fun p hp => holds_merge_left ha (hl.columns_conditions hgl p hp)
  have hright : ∀ p ∈ right.conditions, p.holds ((a.merge b).valuation call) = p.holds (b.valuation call) :=
    fun p hp => holds_merge_right ha fun c hc hmem => hdisjoint hmem (hr.columns_conditions hgr p hp c hc)
  rw [List.all_append, Bool.eq_iff_iff]
  simp only [Bool.and_eq_true, List.all_eq_true]
  exact and_congr (forall₂_congr fun p hp => by rw [hleft p hp])
    (forall₂_congr fun p hp => by rw [hright p hp])

theorem filter_all_cons {p : Expr} {conditions : List Expr} {rows : Multiset Row} :
    (rows.filter fun row => conditions.all (holds (row.valuation call))).filter
      (fun row => p.holds (row.valuation call)) =
      rows.filter fun row => (p :: conditions).all (holds (row.valuation call)) := by
  rw [Multiset.filter_filter]
  exact Multiset.filter_congr fun row _ => by rw [List.all_cons, Bool.and_eq_true]

theorem rows_eq (h : e.InnerPlan) (hground : e.Grounded) (hn : (e.leaves.map (·.1)).Nodup) :
    e.rows db call = (db.product e.leaves).filter fun row => e.conditions.all (holds (row.valuation call)) := by
  induction h with
  | aliased name source => simp [rows, leaves, conditions, Database.product]
  | @join kind hk left right on hints hl hr ihl ihr =>
    obtain ⟨hgl, hgr, -⟩ := hground
    rw [leaves, List.map_append, List.nodup_append'] at hn
    obtain ⟨hnl, hnr, hdisjoint⟩ := hn
    have hrows : (Expr.join kind left right on hints).rows db call =
        (Row.pairs (left.rows db call) (right.rows db call)).filter fun row =>
          on.all (holds (row.valuation call)) := by
      rcases hk with rfl | rfl <;> rfl
    have hpairs := Row.pairs_filter (l := db.product left.leaves) (r := db.product right.leaves)
      (s := fun row => (left.conditions ++ right.conditions).all (holds (row.valuation call)))
      fun a ha b hb => all_conditions_merge hl hr hgl hgr hdisjoint (Database.covers_of_mem_product ha)
    rw [hrows, ihl hgl hnl, ihr hgr hnr, hpairs, Multiset.filter_filter, leaves, Database.product_append]
    refine Multiset.filter_congr fun row _ => ?_
    rw [conditions, List.all_append, Bool.and_eq_true]
    cases on <;> simp
  | select p path h ih => rw [rows, ih hground.1 hn, filter_all_cons, leaves, conditions]
  | guard p h ih => rw [rows, ih hground.1 hn, filter_all_cons, leaves, conditions]
  | sort keys path h ih => exact ih hground hn
  | singleRow => simp [Expr.singleRow, rows, leaves, conditions, Database.product]

end InnerPlan

end Expr

end JoinPlanner
