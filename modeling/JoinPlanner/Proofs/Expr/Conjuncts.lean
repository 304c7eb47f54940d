import JoinPlanner.Proofs.SortedSet
import JoinPlanner.Predicate.Basic
import Mathlib.Data.List.Basic

/-!
# Conjuncts and columns

The conjuncts of an expression are no conjunctions themselves (`conjuncts_of_mem`), they read what the
expression reads (`columns_conjuncts`), and the conjunction of such terms has them back
(`conjuncts_conjunction`).
-/

namespace JoinPlanner.Expr

theorem conjunctsOfList_eq (es : List Expr) : conjunctsOfList es = es.flatMap conjuncts := by
  induction es with
  | nil => rfl
  | cons e rest ih => rw [conjunctsOfList, ih, List.flatMap_cons]

theorem columnsOfList_eq (es : List Expr) : columnsOfList es = es.flatMap columns := by
  induction es with
  | nil => rfl
  | cons e rest ih => rw [columnsOfList, ih, List.flatMap_cons]

theorem columns_apply (op : FunctionOp) (es : List Expr) :
    (apply op es).columns = es.flatMap columns := by
  rw [columns, columnsOfList_eq]

theorem conjuncts_and (es : List Expr) : (apply .and es).conjuncts = es.flatMap conjuncts := by
  rw [conjuncts, conjunctsOfList_eq]

theorem conjuncts_of_not_and {e : Expr} (h : ∀ es, e ≠ apply .and es) : e.conjuncts = [e] :=
  conjuncts.eq_2 e h

/-- A property of all expressions from the parts of a conjunction. -/
theorem conjunction_induction {P : Expr → Prop} (and : ∀ es, (∀ e ∈ es, P e) → P (apply .and es))
    (other : ∀ e : Expr, e.conjuncts = [e] → P e) (e : Expr) : P e :=
  conjuncts.induct P (fun es => ∀ e ∈ es, P e) and (fun e h => other e (conjuncts_of_not_and h))
    (by simp) (fun e rest he hrest => List.forall_mem_cons.2 ⟨he, hrest⟩) e

theorem conjuncts_of_mem {e c : Expr} (h : c ∈ e.conjuncts) : c.conjuncts = [c] := by
  induction e using conjunction_induction with
  | and es ih =>
    rw [conjuncts_and] at h
    obtain ⟨e, he, hc⟩ := List.mem_flatMap.1 h
    exact ih e he hc
  | other e he =>
    rw [he] at h
    obtain rfl := List.mem_singleton.1 h
    exact he

theorem columns_conjuncts (e : Expr) : e.conjuncts.flatMap columns = e.columns := by
  induction e using conjunction_induction with
  | and es ih =>
    rw [conjuncts_and, columns_apply, List.flatMap_assoc]
    exact List.flatMap_congr ih
  | other e he => rw [he, List.flatMap_singleton]

theorem conjuncts_conjunction_eq_flatMap (es : List Expr) :
    (conjunction es).conjuncts = es.flatMap conjuncts := by
  match es with
  | [] => rfl
  | [e] => rw [conjunction, List.flatMap_singleton]
  | e :: f :: rest => rw [conjunction, conjuncts_and]; simp

theorem conjuncts_conjunction {es : List Expr} (h : ∀ e ∈ es, e.conjuncts = [e]) :
    (conjunction es).conjuncts = es := by
  rw [conjuncts_conjunction_eq_flatMap, List.flatMap_congr h, List.flatMap_singleton']

theorem columns_conjunction (es : List Expr) : (conjunction es).columns = es.flatMap columns := by
  match es with
  | [] => rfl
  | [e] => rw [conjunction, List.flatMap_singleton]
  | e :: f :: rest => rw [conjunction, columns_apply]; simp

theorem mem_tables {e : Expr} {t : TableName} : t ∈ e.tables ↔ ∃ c ∈ e.columns, c.table = t := by
  rw [tables, SortedSet.mem_ofList, List.mem_map]

theorem mem_tables_conjunction {es : List Expr} {t : TableName} :
    t ∈ (conjunction es).tables ↔ ∃ e ∈ es, t ∈ e.tables := by
  simp only [mem_tables, columns_conjunction, List.mem_flatMap]
  exact ⟨fun ⟨c, ⟨e, he, hc⟩, ht⟩ => ⟨e, he, c, hc, ht⟩, fun ⟨e, he, c, hc, ht⟩ => ⟨c, ⟨e, he, hc⟩, ht⟩⟩

theorem mem_tables_of_mem_conjuncts {e c : Expr} (h : c ∈ e.conjuncts) {t : TableName}
    (ht : t ∈ c.tables) : t ∈ e.tables := by
  obtain ⟨col, hcol, hct⟩ := mem_tables.1 ht
  exact mem_tables.2 ⟨col, columns_conjuncts e ▸ List.mem_flatMap.2 ⟨c, h, hcol⟩, hct⟩

/-- The pairs of columns are those of the conjuncts that equate columns of different tables. -/
theorem mem_columnPairs {e : Expr} {l r : ColumnRef} :
    (l, r) ∈ e.columnPairs ↔ equals (column l) (column r) ∈ e.conjuncts ∧ l.table ≠ r.table := by
  rw [columnPairs, List.mem_filterMap]
  constructor
  · rintro ⟨term, hterm, h⟩
    split at h
    · split at h
      · cases h
      · next hne =>
        cases h
        exact ⟨hterm, hne⟩
    · cases h
  · rintro ⟨hterm, hne⟩
    exact ⟨_, hterm, by simp [equals, compare, hne]⟩

theorem mem_columns_of_mem_columnPairs {e : Expr} {l r : ColumnRef} (h : (l, r) ∈ e.columnPairs) :
    l ∈ e.columns ∧ r ∈ e.columns := by
  have hread {c : ColumnRef} (hc : c ∈ (equals (column l) (column r)).columns) : c ∈ e.columns :=
    columns_conjuncts e ▸ List.mem_flatMap.2 ⟨_, (mem_columnPairs.1 h).1, hc⟩
  have hcolumns : (equals (column l) (column r)).columns = [l, r] := rfl
  exact ⟨hread (by simp [hcolumns]), hread (by simp [hcolumns])⟩

end JoinPlanner.Expr
