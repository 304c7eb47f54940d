import JoinPlanner.Proofs.Candidate.Conservation
import JoinPlanner.Proofs.Expr.SimplifyRanges

/-!
# Problems that can be stored

The conditions of a problem are made of terms of the query's simple forms, and the ranges of its access paths are
those of range terms or of the points of a composite index. If the query can be stored, and no index has more
columns than a range can have, then so can the problem be that the query comes to
(`Query.storable_of_toProblem`).
-/

namespace JoinPlanner

/-- No index has more columns than the width of a range can count. -/
def Catalog.Storable (catalog : Catalog) : Prop :=
  ∀ entry ∈ catalog.tables, ∀ i ∈ entry.2.indexes, i.columns.length ≤ 0xffffffffffffffff

def AccessPath.Storable (path : AccessPath) : Prop := ∀ r ∈ path.ranges, r.Storable

/-- The conditions and the sort keys of the query can be stored. -/
structure Query.Storable (query : Query) : Prop where
  conditions : ∀ e ∈ query.conditions, e.Storable
  order : ∀ k ∈ query.order, k.key.Storable

structure Predicate.Storable (p : Predicate) : Prop where
  condition : p.condition.Storable
  paths : ∀ path ∈ p.paths, path.Storable

structure Problem.Storable (problem : Problem) : Prop where
  predicates : ∀ p ∈ problem.predicates, p.Storable
  statics : ∀ e ∈ problem.statics, e.Storable
  order : ∀ k ∈ problem.order, k.key.Storable
  sortPath : ∀ path ∈ problem.sortPath, path.Storable

theorem AccessPath.Storable.of_range {path : AccessPath} (h : ∀ r ∈ path.range, r.Storable) : path.Storable :=
  fun r hr => h r (Option.mem_toList.1 hr)

theorem Query.storable_condition {query : Query} {graph : JoinGraph} (hquery : query.Storable)
    (hgraph : JoinGraph.ofTree? query.graph = .ok graph) {p : Predicate} (hp : p ∈ query.predicates graph) :
    p.condition.Storable := by
  refine Expr.rangesIn_conjuncts.1 fun c hc => ?_
  by_cases htrue : c.isTrueLiteral = true
  · cases c with
    | literal v => exact Expr.rangesIn_literal v
    | _ => cases htrue
  · have hterm : c ∈ (query.predicates graph).flatMap fun p => Predicate.termsOf p.condition :=
      List.mem_flatMap.2 ⟨p, hp, Predicate.mem_termsOf.2 ⟨hc, Bool.not_eq_true _ ▸ htrue⟩⟩
    rw [(query.predicates_terms_perm graph).mem_iff] at hterm
    obtain ⟨e, he, hterm⟩ := List.mem_flatMap.1 hterm
    have hsimple := Expr.storable_simplify (hquery.conditions e ((Query.conditions_perm hgraph).mem_iff.1 he))
    exact Expr.rangesIn_conjuncts.2 hsimple c (Predicate.mem_termsOf.1 hterm).1

namespace AccessContext

variable {m : AccessContext} {name : TableName} {i : IndexDef} {range : KeyRange} {condition : Expr}
  {path : AccessPath}

theorem Probes.storable {terms : List Expr} (h : Probes terms i range) (hi : i.columns.length ≤ 0xffffffffffffffff)
    (hterms : ∀ term ∈ terms, term.Storable) : range.Storable := by
  cases h with
  | @point values key _ many found =>
    obtain ⟨hcolumns, hkey⟩ := of_keyOf? found
    have hlength : i.columns.length = key.length := hkey.length_eq
    refine .comparing _ (List.length_pos_iff.1 ?_) ?_ <;> omega
  | leading hterm ranges _ => exact Expr.storable_of_rangeTerm? (hterms _ hterm) ranges

theorem Serves.length_columns_le (h : m.Serves name path i) (hcatalog : m.catalog.Storable) :
    i.columns.length ≤ 0xffffffffffffffff := by
  obtain ⟨t, ht, hi⟩ := h.exists_table
  exact hcatalog _ (Catalog.mem_tables_of_table ht) i hi

theorem Offers.storable (h : m.Offers condition path) (hcatalog : m.catalog.Storable)
    (hcondition : condition.Storable) : path.Storable := by
  refine .of_range fun r hr => ?_
  cases h with
  | filter _ found mem =>
    obtain ⟨i, range, hserves, hrange, hprobes⟩ := exists_of_filterPaths found mem
    obtain rfl : range = r := Option.some.inj (hrange.symm.trans hr)
    exact hprobes.storable (hserves.length_columns_le hcatalog) (Expr.rangesIn_conjuncts.2 hcondition)
  | join _ found mem =>
    obtain ⟨i, -, hnone, -⟩ := exists_of_joinPaths found mem
    cases hnone.symm.trans hr

end AccessContext

/-- The problem that a query comes to can be stored if the query can. -/
theorem AccessContext.Equips.storable {m : AccessContext} {query : Query} {graph : JoinGraph} {problem : Problem}
    (h : m.Equips query graph problem) (hgraph : JoinGraph.ofTree? query.graph = .ok graph)
    (hquery : query.Storable) (hcatalog : m.catalog.Storable) : problem.Storable where
  predicates q hq := by
    obtain ⟨p, hp, hmarks⟩ := exists_of_forall₂ h.predicates hq
    have hcondition := Query.storable_condition hquery hgraph (List.mem_of_mem_filter hp)
    exact ⟨hmarks.condition ▸ hcondition, fun path hpath => (hmarks.paths path hpath).storable hcatalog hcondition⟩
  statics e he := by
    rw [h.statics] at he
    obtain ⟨p, hp, rfl⟩ := List.mem_map.1 he
    exact Query.storable_condition hquery hgraph (List.mem_of_mem_filter hp)
  order k hk := hquery.order k (h.order ▸ hk)
  sortPath path hpath := .of_range fun r hr => by
    obtain ⟨i, -, hnone, -⟩ := AccessContext.exists_of_orderPath (Option.mem_def.1 hpath ▸ h.sortPath)
    cases hnone.symm.trans hr

end JoinPlanner
