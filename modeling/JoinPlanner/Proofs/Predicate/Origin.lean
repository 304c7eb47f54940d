import JoinPlanner.Proofs.Expr.SimplifyColumns
import JoinPlanner.Proofs.Graph.Shape
import JoinPlanner.Proofs.Predicate.Pool

/-!
# Where predicates come from

A predicate of a query performs an outer join (`OuterJoin.toPredicate`) or is an ordinary one
(`Predicate.Ordinary`), which waits for exactly the outer joins that it reaches into from outside. Where
every condition reads only relations below its join, what lies inside an outer join needs relations of
its right branch only (`Predicate.Within`).
-/

namespace JoinPlanner

open JoinPlanner.Expr Predicate

namespace OuterJoin

variable {j : OuterJoin}

theorem mem_neededTables_of_mem_condition {t : TableName} (ht : t ∈ j.condition.tables) :
    t ∈ j.neededTables := by
  have hbase : t ∈ j.condition.tables ∪ j.right := SortedSet.mem_union.2 (.inl ht)
  unfold neededTables
  dsimp only
  split
  · split
    · exact SortedSet.mem_insert.2 (.inr hbase)
    · exact hbase
  · exact hbase

theorem mem_neededTables_of_mem_right {t : TableName} (ht : t ∈ j.right) : t ∈ j.neededTables := by
  have hbase : t ∈ j.condition.tables ∪ j.right := SortedSet.mem_union.2 (.inr ht)
  unfold neededTables
  dsimp only
  split
  · split
    · exact SortedSet.mem_insert.2 (.inr hbase)
    · exact hbase
  · exact hbase

theorem exists_left_mem_neededTables (h : ∃ t, t ∈ j.left) : ∃ t ∈ j.left, t ∈ j.neededTables := by
  unfold neededTables
  dsimp only
  split
  · next anchor hanchor =>
    by_cases hd : (j.condition.tables ∪ j.right).isDisjoint j.left = true
    · rw [if_pos hd]
      exact ⟨anchor, List.mem_of_mem_head? hanchor, SortedSet.mem_insert.2 (.inl rfl)⟩
    · rw [if_neg hd]
      rw [Bool.not_eq_true, SortedSet.isDisjoint_eq_false_iff] at hd
      obtain ⟨t, ht, hleft⟩ := hd
      exact ⟨t, hleft, ht⟩
  · next hnone =>
    obtain ⟨t, ht⟩ := h
    rw [SortedSet.mem_def, List.head?_eq_none_iff.1 hnone] at ht
    exact absurd ht List.not_mem_nil

theorem mem_condition_tables {t : TableName} (ht : t ∈ j.condition.tables) :
    ∃ term ∈ j.attached, t ∈ term.tables := by
  unfold condition at ht
  split at ht
  · exact absurd ht SortedSet.not_mem_empty
  · exact mem_tables_conjunction.1 ht

theorem mem_on_of_mem_term {term : Expr} (h : term ∈ j.terms) {t : TableName} (ht : t ∈ term.tables) :
    ∃ e ∈ j.on, t ∈ e.tables := by
  obtain ⟨e, he, hterm⟩ := mem_terms h
  exact ⟨e, he, mem_tables_of_mem_simplify (mem_tables_of_mem_conjuncts (mem_termsOf.1 hterm).1 ht)⟩

theorem mem_spans_of_mem_neededTables (hon : ∀ e ∈ j.on, ∀ t ∈ e.tables, t ∈ j.left ∨ t ∈ j.right)
    {t : TableName} (ht : t ∈ j.neededTables) : t ∈ j.spans := by
  have hbase : ∀ u ∈ j.condition.tables ∪ j.right, u ∈ j.spans := fun u hu => by
    rcases SortedSet.mem_union.1 hu with hu | hu
    · obtain ⟨term, hterm, hu⟩ := mem_condition_tables hu
      obtain ⟨e, he, hu⟩ := mem_on_of_mem_term (mem_terms_of_mem_attached hterm) hu
      exact mem_spans.2 (hon e he u hu)
    · exact mem_spans.2 (.inr hu)
  unfold neededTables at ht
  dsimp only at ht
  split at ht
  · next anchor hanchor =>
    split at ht
    · rcases SortedSet.mem_insert.1 ht with rfl | ht
      · exact mem_spans.2 (.inl (List.mem_of_mem_head? hanchor))
      · exact hbase t ht
    · exact hbase t ht
  · exact hbase t ht

end OuterJoin

namespace Predicate

/-- The predicate reaches into the right branch of an outer join from outside. -/
def ReachesInto (p : Predicate) (j : OuterJoin) : Prop := j.id ∉ p.inside ∧ ∃ t ∈ p.tables, t ∈ j.right

theorem mem_reachedTables {joins : List OuterJoin} {p : Predicate} {t : TableName} :
    t ∈ p.reachedTables joins ↔ ∃ j ∈ joins, p.ReachesInto j ∧ t ∈ j.right := by
  have hreach (j : OuterJoin) : (!p.inside.contains j.id && !p.tables.isDisjoint j.right) = true ↔
      p.ReachesInto j := by
    rw [Bool.and_eq_true, Bool.not_eq_true', Bool.not_eq_true', SortedSet.isDisjoint_eq_false_iff,
      ← Bool.not_eq_true, SortedSet.contains_iff]
    rfl
  rw [reachedTables, SortedSet.mem_unions]
  simp only [List.mem_map, List.mem_filter, hreach]
  constructor
  · rintro ⟨_, ⟨j, ⟨hj, hp⟩, rfl⟩, ht⟩
    exact ⟨j, hj, hp, ht⟩
  · rintro ⟨j, hj, hp, ht⟩
    exact ⟨_, ⟨j, ⟨hj, hp⟩, rfl⟩, ht⟩

/-- A predicate that performs no outer join, but for the joins that it waits for. -/
structure Plain (p : Predicate) : Prop where
  exclusive : p.exclusive = false
  joinKind : p.joinKind = .inner
  outerJoin : p.outerJoin = none
  terms : termsOf p.condition = p.condition.conjuncts
  reads : ∀ t ∈ p.condition.tables, t ∈ p.tables
  anchored : ∀ id ∈ p.inside, ∃ t, t ∈ p.tables

/-- A predicate that performs no outer join, and waits for exactly those that it reaches into. -/
structure Ordinary (joins : List OuterJoin) (p : Predicate) : Prop extends Plain p where
  waits : ∀ j ∈ joins, p.ReachesInto j → ∃ reached, p.waitsFor = some reached ∧ ∀ t ∈ j.right, t ∈ reached
  reaches : ∀ reached, p.waitsFor = some reached → ∃ j ∈ joins, p.ReachesInto j

theorem Plain.merge {p q : Predicate} (hp : p.Plain) (hq : q.Plain) (h : p.canMerge q = true) :
    (p.merge q).Plain := by
  obtain ⟨-, -, htables, -, -⟩ := of_canMerge h
  refine ⟨hp.exclusive, hp.joinKind, hp.outerJoin, ?_, fun t ht => ?_, hp.anchored⟩
  · rw [termsOf_merge, conjuncts_merge, hp.terms, hq.terms]
  · rcases mem_tables_merge.1 ht with ht | ht
    · exact hp.reads t ht
    · show t ∈ p.tables
      rw [htables]
      exact hq.reads t ht

theorem waiting_of_not_exclusive {p : Predicate} (h : p.exclusive = false) (joins : List OuterJoin) :
    waiting joins p = { p with
      waitsFor := if (p.reachedTables joins).isEmpty then none else some (p.reachedTables joins) } := by
  rw [waiting, h]
  rfl

theorem Plain.ordinary {p : Predicate} (h : p.Plain) (joins : List OuterJoin) :
    (waiting joins p).Ordinary joins := by
  have hmem {j : OuterJoin} {t : TableName} (hj : j ∈ joins) (hp : p.ReachesInto j) (ht : t ∈ j.right) :
      t ∈ p.reachedTables joins := mem_reachedTables.2 ⟨j, hj, hp, ht⟩
  rw [waiting_of_not_exclusive h.exclusive]
  refine { h with waits := fun j hj hp => ?_, reaches := fun reached hr => ?_ }
  · have hne : (p.reachedTables joins).isEmpty = false := by
      obtain ⟨-, t, -, ht⟩ := id hp
      exact SortedSet.isEmpty_eq_false_iff.2 ⟨t, hmem hj hp ht⟩
    exact ⟨p.reachedTables joins, by rw [hne]; rfl, fun t ht => hmem hj hp ht⟩
  · by_cases he : (p.reachedTables joins).isEmpty = true
    · simp only [he, if_true] at hr
      cases hr
    · rw [Bool.not_eq_true, SortedSet.isEmpty_eq_false_iff] at he
      obtain ⟨t, ht⟩ := he
      obtain ⟨j, hj, hp, -⟩ := mem_reachedTables.1 ht
      exact ⟨j, hj, hp⟩

theorem plain_ofCondition {e term : Expr} (h : term ∈ termsOf e) {inside : SortedSet Nat}
    (hanchor : ∀ id ∈ inside, ∃ t, t ∈ term.tables) : (ofCondition term inside).Plain := by
  refine ⟨rfl, rfl, rfl, ?_, fun t ht => ht, hanchor⟩
  show termsOf term = term.conjuncts
  rw [termsOf_of_mem h, conjuncts_of_mem_termsOf h]

/-- The tables of a scoped condition are its own, or the scope if it has none. -/
theorem ofScopedCondition_cases (term : Expr) (inside : SortedSet Nat) (scope : TableSet) :
    ofScopedCondition term inside scope = { ofCondition term inside with tables := scope } ∧
        (∀ t, t ∉ term.tables) ∨
      ofScopedCondition term inside scope = ofCondition term inside ∧
        ∀ id ∈ inside, ∃ t, t ∈ term.tables := by
  unfold ofScopedCondition
  dsimp only
  split
  · next h =>
    rw [Bool.and_eq_true] at h
    exact .inl ⟨rfl, SortedSet.isEmpty_iff.1 h.1⟩
  · next h =>
    refine .inr ⟨rfl, fun id hid => ?_⟩
    rw [Bool.and_eq_true, not_and_or, Bool.not_eq_true, Bool.not_eq_true] at h
    rcases h with h | h
    · exact SortedSet.isEmpty_eq_false_iff.1 h
    · rw [Bool.not_eq_false'] at h
      exact absurd hid (SortedSet.isEmpty_iff.1 h id)

/-! ### Places -/

/-- The predicate needs relations of the graph, and of the right branch of every outer join in which it
lies. -/
structure Within (graph : JoinGraph) (p : Predicate) : Prop where
  present : ∀ t ∈ p.tables, t ∈ graph.names
  branch : ∀ j ∈ graph.outerJoins, j.id ∈ p.inside → ∀ t ∈ p.tables, t ∈ j.right

end Predicate

namespace Query

variable {query : Query} {graph : JoinGraph}

theorem mem_parts {p : Predicate} : p ∈ query.parts graph ↔
    (∃ e ∈ query.filter, ∃ term ∈ termsOf e.simplify, p = ofCondition term ∅) ∨
    (∃ f ∈ graph.filters, ∃ term ∈ termsOf f.condition.simplify,
      p = ofScopedCondition term f.inside f.scope) ∨
    (∃ j ∈ graph.outerJoins, ∃ term ∈ j.hoisted, p = ofCondition term j.inside) ∨
    ∃ j ∈ graph.outerJoins, p = j.toPredicate := by
  have parts (j : OuterJoin) : p ∈ j.parts ↔
      (∃ term ∈ j.hoisted, p = ofCondition term j.inside) ∨ p = j.toPredicate := by
    simp only [OuterJoin.parts, List.mem_append, List.mem_map, List.mem_singleton, eq_comm (a := p)]
  have split : (∃ j ∈ graph.outerJoins, p ∈ j.parts) ↔
      (∃ j ∈ graph.outerJoins, ∃ term ∈ j.hoisted, p = ofCondition term j.inside) ∨
        ∃ j ∈ graph.outerJoins, p = j.toPredicate := by
    simp only [parts, ← exists_or, ← and_or_left]
  simp only [Query.parts, List.mem_append, List.mem_flatMap, List.mem_map, Option.mem_toList, split,
    or_assoc, eq_comm (a := p), Option.mem_def]

/-- Every part is plain but those that perform an outer join. -/
theorem plain_or_of_mem_parts (hn : graph.Nested) {p : Predicate} (h : p ∈ query.parts graph) :
    p.Plain ∨ ∃ j ∈ graph.outerJoins, p = j.toPredicate := by
  rcases mem_parts.1 h with ⟨e, he, term, hterm, rfl⟩ | ⟨f, hf, term, hterm, rfl⟩ | ⟨j, hj, term, hterm, rfl⟩ |
    hj
  · exact .inl (plain_ofCondition hterm fun id hid => absurd hid SortedSet.not_mem_empty)
  · rcases ofScopedCondition_cases term f.inside f.scope with ⟨heq, hnone⟩ | ⟨heq, hanchor⟩ <;> rw [heq]
    · refine .inl ⟨rfl, rfl, rfl, ?_, fun t ht => absurd ht (hnone t), fun _ _ => (hn.scopes f hf).1⟩
      show termsOf term = term.conjuncts
      rw [termsOf_of_mem hterm, conjuncts_of_mem_termsOf hterm]
    · exact .inl (plain_ofCondition hterm hanchor)
  · obtain ⟨hmem, hhoist⟩ := List.mem_filter.1 hterm
    obtain ⟨e, -, he⟩ := j.mem_terms hmem
    refine .inl (plain_ofCondition he fun _ _ => SortedSet.isEmpty_eq_false_iff.1 ?_)
    rw [OuterJoin.hoists, Bool.and_eq_true, Bool.not_eq_true'] at hhoist
    exact hhoist.1
  · exact .inr hj

theorem within_of_mem_parts (hg : JoinGraph.ofTree? query.graph = .ok graph) (hs : query.isScoped = true)
    {p : Predicate} (h : p ∈ query.parts graph) : p.Within graph := by
  have hn := JoinGraph.nested_of_ofTree? hg
  have hscoped := scoped_graph hg hs
  have ofTerm {e term : Expr} (hterm : term ∈ termsOf e.simplify) {t : TableName} (ht : t ∈ term.tables) :
      t ∈ e.tables :=
    mem_tables_of_mem_simplify (mem_tables_of_mem_conjuncts (mem_termsOf.1 hterm).1 ht)
  rcases mem_parts.1 h with ⟨e, he, term, hterm, rfl⟩ | ⟨f, hf, term, hterm, rfl⟩ | ⟨j, hj, term, hterm, rfl⟩ |
    ⟨j, hj, rfl⟩
  · exact ⟨fun t ht => filter_present hg hs e he t (ofTerm hterm ht),
      fun j _ hid => absurd hid SortedSet.not_mem_empty⟩
  · obtain ⟨heq, hsub⟩ : (ofScopedCondition term f.inside f.scope).inside = f.inside ∧
        ∀ t ∈ (ofScopedCondition term f.inside f.scope).tables, t ∈ f.scope := by
      rcases ofScopedCondition_cases term f.inside f.scope with ⟨heq, -⟩ | ⟨heq, -⟩ <;> rw [heq]
      · exact ⟨rfl, fun t ht => ht⟩
      · exact ⟨rfl, fun t ht => hscoped.filters f hf t (ofTerm hterm ht)⟩
    refine ⟨fun t ht => (hn.scopes f hf).2 t (hsub t ht), fun j hj hid t ht => ?_⟩
    exact hn.branches f hf j hj (heq ▸ hid) t (hsub t ht)
  · have hsub : ∀ t ∈ term.tables, t ∈ j.spans := fun t ht => by
      obtain ⟨e, he, ht⟩ := j.mem_on_of_mem_term (j.mem_terms_of_mem_hoisted hterm) ht
      exact OuterJoin.mem_spans.2 (hscoped.outerJoins j hj e he t ht)
    exact ⟨fun t ht => (hn.proper j hj).present t (hsub t ht),
      fun k hk hid t ht => hn.mem_right_of_inside hj hk hid (hsub t ht)⟩
  · have hsub : ∀ t ∈ j.neededTables, t ∈ j.spans := fun t ht =>
      OuterJoin.mem_spans_of_mem_neededTables (hscoped.outerJoins j hj) ht
    exact ⟨fun t ht => (hn.proper j hj).present t (hsub t ht),
      fun k hk hid t ht => hn.mem_right_of_inside hj hk hid (hsub t ht)⟩

variable {p : Predicate}

theorem ordinary_or_of_mem (hn : graph.Nested) (h : p ∈ query.predicates graph) :
    p.Ordinary graph.outerJoins ∨ ∃ j ∈ graph.outerJoins, p = j.toPredicate := by
  rw [predicates_eq] at h
  obtain ⟨q, hq, rfl⟩ := List.mem_map.1 h
  have hpool : q.Plain ∨ ∃ j ∈ graph.outerJoins, q = j.toPredicate := by
    refine forall_addAll (P := fun q => q.Plain ∨ ∃ j ∈ graph.outerJoins, q = j.toPredicate) ?_
      (fun p hp => plain_or_of_mem_parts hn hp) (fun p hp => absurd hp List.not_mem_nil) q hq
    intro p q hp hq hm
    obtain ⟨hpx, hqx, -⟩ := of_canMerge hm
    rcases hp with hp | ⟨j, -, rfl⟩
    · rcases hq with hq | ⟨j, -, rfl⟩
      · exact .inl (hp.merge hq hm)
      · cases hqx
    · cases hpx
  rcases hpool with hplain | ⟨j, hj, rfl⟩
  · exact .inl (hplain.ordinary _)
  · exact .inr ⟨j, hj, rfl⟩

theorem within_of_mem (hg : JoinGraph.ofTree? query.graph = .ok graph) (hs : query.isScoped = true)
    (h : p ∈ query.predicates graph) : p.Within graph := by
  rw [predicates_eq] at h
  obtain ⟨q, hq, rfl⟩ := List.mem_map.1 h
  have hpool : q.Within graph :=
    forall_addAll (P := fun q => q.Within graph) (fun p q hp _ _ => ⟨hp.present, hp.branch⟩)
      (fun p hp => within_of_mem_parts hg hs hp) (fun p hp => absurd hp List.not_mem_nil) q hq
  unfold waiting
  split
  · exact hpool
  · exact ⟨hpool.present, hpool.branch⟩

end Query

end JoinPlanner
