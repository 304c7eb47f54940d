import JoinPlanner.Proofs.Expr.Conjuncts
import JoinPlanner.Proofs.Expr.NodeStep

/-!
# Columns of simple forms

Simplification brings no column into an expression (`columns_simplify_subset`): what it makes of a
node reads no more than the node, and so by induction of a whole tree.
-/

namespace JoinPlanner.Expr

theorem columns_rangeOrTruth_subset (c : ColumnRef) (range : KeyRange) :
    (rangeOrTruth c range).columns ⊆ [c] := by
  unfold rangeOrTruth
  split
  · exact List.nil_subset _
  · split
    · exact List.nil_subset _
    · rw [inRange, columns_apply]; simp [columns]

theorem eq_column_of_column? {e : Expr} {c : ColumnRef} (h : e.column? = some c) : e = column c := by
  cases e <;> simp_all [column?]

theorem columns_columnComparison {op op' : Comparison} {left right : Expr} {c : ColumnRef} {v : Value}
    (h : columnComparison? op left right = some (c, op', v)) : c ∈ left.columns ++ right.columns := by
  unfold columnComparison? at h
  split at h
  · next c' v' hl hr =>
    obtain ⟨rfl, -⟩ := Prod.mk.inj (Option.some.inj h)
    rw [eq_column_of_column? hl]; simp [columns]
  · split at h
    · next v' c' hl hr =>
      obtain ⟨rfl, -⟩ := Prod.mk.inj (Option.some.inj h)
      rw [eq_column_of_column? hr]; simp [columns]
    · cases h

theorem columns_of_rangeTerm? {e : Expr} {c : ColumnRef} {range : KeyRange}
    (h : e.rangeTerm? = some (c, range)) : c ∈ e.columns := by
  unfold rangeTerm? at h
  split at h
  · next r c' rest =>
    obtain ⟨rfl, -⟩ := Prod.mk.inj (Option.some.inj h)
    rw [columns_apply]; simp [columns]
  · cases h

/-- Merged terms read no more than the terms. -/
theorem columns_mergedTerms_subset (j : Junction) (args : List Expr) :
    ∀ e ∈ mergedTerms j args, e.columns ⊆ args.flatMap columns := by
  refine forall_foldl_mergeTerm (fun _ _ c r s _ hterm _ hterms _ => ?_) nofun fun t ht => ?_
  · refine List.Subset.trans (columns_rangeOrTruth_subset c _) (List.cons_subset.2 ⟨hterm ?_, List.nil_subset _⟩)
    exact columns_of_rangeTerm? hterms
  · intro c hc
    rcases mem_terms_cases ht with ⟨ht, -⟩ | ⟨es, hes, ht⟩
    · exact List.mem_flatMap.2 ⟨t, ht, hc⟩
    · exact List.mem_flatMap.2 ⟨_, hes, columns_apply j.op es ▸ List.mem_flatMap.2 ⟨t, ht, hc⟩⟩

theorem columns_simplifyNode_subset (e : Expr) : e.simplifyNode.columns ⊆ e.columns := by
  generalize hresult : e.simplifyNode = result
  have hstep := nodeStep_simplifyNode e
  rw [hresult] at hstep
  cases hstep with
  | keep => exact List.Subset.refl _
  | literal => exact List.nil_subset _
  | range hcolumn =>
    rw [compare, columns_apply, inRange, columns_apply]
    simpa [columns] using columns_columnComparison hcolumn
  | term hterm =>
    rw [columns_apply]
    exact columns_mergedTerms_subset _ _ _ hterm
  | @junction j args rest hterms =>
    rw [columns_apply, columns_apply]
    intro c hc
    obtain ⟨e, he, hc⟩ := List.mem_flatMap.1 hc
    exact columns_mergedTerms_subset j args e (hterms.mem he) hc

theorem columns_eq (e : Expr) : e.columns = e.column?.toList ++ e.children.flatMap columns := by
  cases e with
  | apply op args => rw [columns_apply]; rfl
  | join kind left right on hints => cases on <;> simp [columns, column?, children, columnsOfOption]
  | _ => simp [columns, column?, children]

theorem columns_mapChildren_subset {g : Expr → Expr} {e : Expr} (h : ∀ f ∈ e.children, (g f).columns ⊆ f.columns) :
    (e.mapChildren g).columns ⊆ e.columns := by
  have hcolumn : (e.mapChildren g).column? = e.column? := by cases e <;> rfl
  rw [columns_eq, columns_eq e, hcolumn, children_mapChildren, List.flatMap_map]
  intro c hc
  rcases List.mem_append.1 hc with hc | hc
  · exact List.mem_append_left _ hc
  · obtain ⟨f, hf, hc⟩ := List.mem_flatMap.1 hc
    exact List.mem_append_right _ (List.mem_flatMap.2 ⟨f, hf, h f hf hc⟩)

theorem columns_simplify_subset (e : Expr) : e.simplify.columns ⊆ e.columns := by
  induction e using children_induction with
  | h e ih =>
    rw [simplify_eq]
    exact List.Subset.trans (columns_simplifyNode_subset _) (columns_mapChildren_subset ih)

theorem mem_tables_of_mem_simplify {e : Expr} {t : TableName} (h : t ∈ e.simplify.tables) : t ∈ e.tables := by
  obtain ⟨c, hc, ht⟩ := mem_tables.1 h
  exact mem_tables.2 ⟨c, columns_simplify_subset e hc, ht⟩

end JoinPlanner.Expr
