import JoinPlanner.Planner
import JoinPlanner.Proofs.Expr.Conjuncts
import JoinPlanner.Proofs.Graph.Flatten

/-!
# The pool of predicates

The predicates of a query come from a list of parts, one for every conjunct that is applied apart from
an outer join and one for every outer join (`Query.parts`), added to the pool one after the other. A
part is appended or merged; either way no conjunct is lost (`addAll_terms_perm`) and the predicates of
the outer joins stay as they are (`addAll_filter_exclusive`).
-/

namespace JoinPlanner

open JoinPlanner.Expr

namespace Predicate

theorem mem_termsOf {e term : Expr} : term ∈ termsOf e ↔ term ∈ e.conjuncts ∧ term.isTrueLiteral = false := by
  rw [termsOf, List.mem_filter, Bool.not_eq_true']

theorem conjuncts_of_mem_termsOf {e term : Expr} (h : term ∈ termsOf e) : term.conjuncts = [term] :=
  conjuncts_of_mem (mem_termsOf.1 h).1

theorem termsOf_of_mem {e term : Expr} (h : term ∈ termsOf e) : termsOf term = [term] := by
  rw [termsOf, conjuncts_of_mem_termsOf h, List.filter_singleton, (mem_termsOf.1 h).2]
  rfl

theorem flatMap_termsOf {e : Expr} {terms : List Expr} (h : ∀ term ∈ terms, term ∈ termsOf e) :
    terms.flatMap termsOf = terms := by
  rw [List.flatMap_congr fun term ht => termsOf_of_mem (h term ht), List.flatMap_singleton']

theorem conjuncts_of_isTrueLiteral {e : Expr} (h : e.isTrueLiteral = true) : e.conjuncts = [e] := by
  refine conjuncts_of_not_and fun es he => ?_
  rw [he] at h
  cases h

theorem addTo_cases (p : Predicate) (pool : List Predicate) :
    (∀ q ∈ pool, q.canMerge p = false) ∧ p.addTo pool = pool ++ [p] ∨
      ∃ before q after, pool = before ++ q :: after ∧ q.canMerge p = true ∧
        p.addTo pool = before ++ q.merge p :: after := by
  induction pool with
  | nil => exact .inl ⟨fun q hq => absurd hq List.not_mem_nil, rfl⟩
  | cons q rest ih =>
    rw [addTo]
    by_cases hm : q.canMerge p = true
    · rw [if_pos hm]
      exact .inr ⟨[], q, rest, rfl, hm, rfl⟩
    · rw [if_neg hm]
      rcases ih with ⟨hnone, ih⟩ | ⟨before, r, after, rfl, hr, ih⟩
      · exact .inl ⟨List.forall_mem_cons.2 ⟨Bool.eq_false_iff.2 hm, hnone⟩, by rw [ih]; rfl⟩
      · exact .inr ⟨q :: before, r, after, rfl, hr, by rw [ih]; rfl⟩

/-- Two predicates that may be merged perform no outer join and agree in where they belong. -/
theorem of_canMerge {p q : Predicate} (h : p.canMerge q = true) :
    p.exclusive = false ∧ q.exclusive = false ∧ p.tables = q.tables ∧ p.inside = q.inside ∧
      p.waitsFor = q.waitsFor := by
  simp only [canMerge, Bool.and_eq_true, Bool.not_eq_true', decide_eq_true_eq] at h
  exact ⟨h.1.1.1.1.1.1.1, h.1.1.1.1.1.1.2, h.1.1.1.1.2, h.1.1.1.2, h.1.1.2⟩

theorem conjuncts_merge (p q : Predicate) :
    (p.merge q).condition.conjuncts = p.condition.conjuncts ++ q.condition.conjuncts := by
  refine conjuncts_conjunction fun e he => ?_
  rcases List.mem_append.1 he with he | he <;> exact conjuncts_of_mem he

theorem termsOf_merge (p q : Predicate) :
    termsOf (p.merge q).condition = termsOf p.condition ++ termsOf q.condition := by
  rw [termsOf, conjuncts_merge, List.filter_append]
  rfl

theorem mem_tables_merge {p q : Predicate} {t : TableName} :
    t ∈ (p.merge q).condition.tables ↔ t ∈ p.condition.tables ∨ t ∈ q.condition.tables := by
  simp only [mem_tables, merge, columns_conjunction, List.flatMap_append, columns_conjuncts, List.mem_append]
  exact ⟨fun ⟨c, hc, ht⟩ => hc.imp (fun h => ⟨c, h, ht⟩) fun h => ⟨c, h, ht⟩,
    fun h => h.elim (fun ⟨c, hc, ht⟩ => ⟨c, .inl hc, ht⟩) fun ⟨c, hc, ht⟩ => ⟨c, .inr hc, ht⟩⟩

/-- The pool after a list of predicates has been added. -/
def addAll (parts pool : List Predicate) : List Predicate := parts.foldl (fun pool p => p.addTo pool) pool

theorem addAll_append (parts parts' pool : List Predicate) :
    addAll (parts ++ parts') pool = addAll parts' (addAll parts pool) := List.foldl_append

theorem addAll_flatMap {α : Type} (f : α → List Predicate) (l : List α) (pool : List Predicate) :
    addAll (l.flatMap f) pool = l.foldl (fun pool a => addAll (f a) pool) pool := by
  induction l generalizing pool with
  | nil => rfl
  | cons a rest ih => rw [List.flatMap_cons, addAll_append, ih]; rfl

/-- What holds of every part, and is kept by merging, holds all through the pool. -/
theorem forall_addAll {P : Predicate → Prop}
    (merge : ∀ p q, P p → P q → p.canMerge q = true → P (p.merge q)) {parts pool : List Predicate}
    (hparts : ∀ p ∈ parts, P p) (hpool : ∀ p ∈ pool, P p) : ∀ p ∈ addAll parts pool, P p := by
  induction parts generalizing pool with
  | nil => exact hpool
  | cons p rest ih =>
    obtain ⟨hp, hrest⟩ := List.forall_mem_cons.1 hparts
    refine ih hrest fun q hq => ?_
    change q ∈ p.addTo pool at hq
    rcases addTo_cases p pool with ⟨-, hadd⟩ | ⟨before, r, after, rfl, hr, hadd⟩ <;> rw [hadd] at hq
    · rcases List.mem_append.1 hq with hq | hq
      · exact hpool q hq
      · rw [List.mem_singleton.1 hq]; exact hp
    · rcases List.mem_append.1 hq with hq | hq
      · exact hpool q (List.mem_append_left _ hq)
      · rcases List.mem_cons.1 hq with rfl | hq
        · exact merge r p (hpool r (List.mem_append_right _ (.head _))) hp hr
        · exact hpool q (List.mem_append_right _ (.tail _ hq))

/-- Adding loses no term and repeats none. -/
theorem addAll_terms_perm (parts pool : List Predicate) :
    ((addAll parts pool).flatMap fun p => termsOf p.condition).Perm
      ((pool ++ parts).flatMap fun p => termsOf p.condition) := by
  induction parts generalizing pool with
  | nil => rw [List.append_nil]; exact .refl _
  | cons p rest ih =>
    refine (ih (p.addTo pool)).trans ?_
    rcases addTo_cases p pool with ⟨-, hadd⟩ | ⟨before, q, after, rfl, hq, hadd⟩ <;> rw [hadd]
    · rw [List.append_assoc, List.singleton_append]
    · simp only [List.flatMap_append, List.flatMap_cons, termsOf_merge, ← Multiset.coe_eq_coe,
        ← Multiset.coe_add]
      abel

theorem addAll_filter_exclusive (parts pool : List Predicate) :
    (addAll parts pool).filter (·.exclusive) = (pool ++ parts).filter (·.exclusive) := by
  induction parts generalizing pool with
  | nil => rw [List.append_nil]; rfl
  | cons p rest ih =>
    refine (ih (p.addTo pool)).trans ?_
    rcases addTo_cases p pool with ⟨-, hadd⟩ | ⟨before, q, after, rfl, hq, hadd⟩ <;> rw [hadd]
    · rw [List.append_assoc, List.singleton_append]
    · obtain ⟨hq, hp, -⟩ := of_canMerge hq
      have hmerge : (q.merge p).exclusive = false := hq
      simp [List.filter_append, hq, hp, hmerge]

theorem addFilter_eq (filter : Expr) (inside : SortedSet Nat) (pool : List Predicate) :
    addFilter filter inside pool = addAll ((termsOf filter).map (ofCondition · inside)) pool := by
  rw [addFilter, addAll, List.foldl_map]

theorem addScopedFilter_eq (filter : Expr) (inside : SortedSet Nat) (scope : TableSet)
    (pool : List Predicate) :
    addScopedFilter filter inside scope pool =
      addAll ((termsOf filter).map (ofScopedCondition · inside scope)) pool := by
  rw [addScopedFilter, addAll, List.foldl_map]

end Predicate

open Predicate

/-! ### The parts of a query -/

namespace OuterJoin

/-- The hoisted conjuncts of an outer join as predicates, then the join itself. -/
def parts (j : OuterJoin) : List Predicate := j.hoisted.map (ofCondition · j.inside) ++ [j.toPredicate]

theorem mem_terms {j : OuterJoin} {term : Expr} (h : term ∈ j.terms) :
    ∃ e ∈ j.on, term ∈ termsOf e.simplify := by
  unfold terms at h
  split at h
  · next e he => exact ⟨e, he, h⟩
  · cases h

theorem mem_terms_of_mem_hoisted {j : OuterJoin} {term : Expr} (h : term ∈ j.hoisted) : term ∈ j.terms :=
  List.mem_of_mem_filter h

theorem mem_terms_of_mem_attached {j : OuterJoin} {term : Expr} (h : term ∈ j.attached) : term ∈ j.terms :=
  List.mem_of_mem_filter h

theorem terms_eq (j : OuterJoin) : j.terms = j.on.toList.flatMap fun e => termsOf e.simplify := by
  unfold terms
  split
  · next e he => rw [he, Option.toList_some, List.flatMap_singleton]
  · next he => rw [he]; rfl

theorem addTo_eq (j : OuterJoin) (pool : List Predicate) : j.addTo pool = addAll j.parts pool := by
  have hoisted (terms : List Expr) (pool : List Predicate) (h : ∀ term ∈ terms, term ∈ j.terms) :
      terms.foldl (fun pool term => addFilter term j.inside pool) pool =
        addAll (terms.map (ofCondition · j.inside)) pool := by
    induction terms generalizing pool with
    | nil => rfl
    | cons term rest ih =>
      obtain ⟨hterm, hrest⟩ := List.forall_mem_cons.1 h
      obtain ⟨e, -, he⟩ := mem_terms hterm
      rw [List.foldl_cons, ih _ hrest, addFilter_eq, termsOf_of_mem he]
      rfl
  rw [addTo, parts, addAll_append, hoisted _ _ fun _ => mem_terms_of_mem_hoisted]
  rfl

theorem termsOf_condition (j : OuterJoin) : termsOf j.condition = j.attached := by
  have hown : ∀ term ∈ j.attached, ∃ e : Expr, term ∈ termsOf e := fun term h => by
    obtain ⟨e, -, he⟩ := mem_terms (mem_terms_of_mem_attached h)
    exact ⟨_, he⟩
  unfold condition
  split
  · next h => rw [List.isEmpty_iff.1 h]; rfl
  · rw [termsOf, conjuncts_conjunction fun term h => conjuncts_of_mem_termsOf (hown term h).choose_spec,
      List.filter_eq_self]
    intro term h
    rw [(mem_termsOf.1 (hown term h).choose_spec).2]
    rfl

theorem condition_eq_true_or (j : OuterJoin) :
    j.condition.isTrueLiteral = true ∨ termsOf j.condition = j.condition.conjuncts := by
  rw [termsOf_condition]
  unfold condition
  split
  · exact .inl rfl
  · refine .inr (conjuncts_conjunction fun term h => ?_).symm
    obtain ⟨e, -, he⟩ := mem_terms (mem_terms_of_mem_attached h)
    exact conjuncts_of_mem_termsOf he

theorem parts_terms_perm (j : OuterJoin) : (j.parts.flatMap fun p => termsOf p.condition).Perm j.terms := by
  have hoisted : (j.hoisted.map (ofCondition · j.inside)).flatMap (fun p => termsOf p.condition) =
      j.hoisted := by
    rw [List.flatMap_map]
    refine (List.flatMap_congr fun term h => ?_).trans (List.flatMap_singleton' _)
    obtain ⟨e, -, he⟩ := mem_terms (mem_terms_of_mem_hoisted h)
    exact termsOf_of_mem he
  rw [parts, List.flatMap_append, List.flatMap_singleton, hoisted]
  show (j.hoisted ++ termsOf j.condition).Perm j.terms
  rw [termsOf_condition]
  exact List.filter_append_perm j.hoists j.terms

end OuterJoin

namespace Query

def parts (query : Query) (graph : JoinGraph) : List Predicate :=
  (query.filter.toList.flatMap fun e => (termsOf e.simplify).map (ofCondition · ∅))
    ++ (graph.filters.flatMap fun f =>
      (termsOf f.condition.simplify).map (ofScopedCondition · f.inside f.scope))
    ++ graph.outerJoins.flatMap OuterJoin.parts

theorem predicates_eq (query : Query) (graph : JoinGraph) :
    query.predicates graph = (addAll (query.parts graph) []).map (waiting graph.outerJoins) := by
  have hpool (first : List Predicate) : propagate graph.outerJoins (graph.filters.foldl
      (fun pool f => addScopedFilter f.condition.simplify f.inside f.scope pool) (addAll first [])) =
        (addAll (first ++ (graph.filters.flatMap fun f =>
          (termsOf f.condition.simplify).map (ofScopedCondition · f.inside f.scope)) ++
            graph.outerJoins.flatMap OuterJoin.parts) []).map (waiting graph.outerJoins) := by
    simp only [propagate, addAll_append, addAll_flatMap, addScopedFilter_eq, OuterJoin.addTo_eq]
  rcases query with ⟨joins, _ | e, order⟩
  · exact hpool []
  · rw [parts, Option.toList_some, List.flatMap_singleton, ← hpool, ← addFilter_eq]
    rfl

theorem parts_filter_exclusive (query : Query) (graph : JoinGraph) :
    (query.parts graph).filter (·.exclusive) = graph.outerJoins.map OuterJoin.toPredicate := by
  have none (l : List Predicate) (h : ∀ p ∈ l, p.exclusive = false) : l.filter (·.exclusive) = [] := by
    refine List.filter_eq_nil_iff.2 fun p hp => ?_
    rw [h p hp]
    exact Bool.false_ne_true
  have hscoped (inside : SortedSet Nat) (scope : TableSet) (term : Expr) :
      (ofScopedCondition term inside scope).exclusive = false := by
    unfold ofScopedCondition; dsimp only; split <;> rfl
  have houter (j : OuterJoin) : j.parts.filter (·.exclusive) = [j.toPredicate] := by
    rw [OuterJoin.parts, List.filter_append, none _ fun p hp => ?_]
    · rfl
    · obtain ⟨term, -, rfl⟩ := List.mem_map.1 hp
      rfl
  rw [parts, List.filter_append, List.filter_append, none, none, List.nil_append, List.nil_append,
    List.filter_flatMap]
  · simp only [houter]
    rw [← List.map_eq_flatMap]
  · intro p hp
    obtain ⟨f, -, hp⟩ := List.mem_flatMap.1 hp
    obtain ⟨term, -, rfl⟩ := List.mem_map.1 hp
    exact hscoped _ _ _
  · intro p hp
    obtain ⟨e, -, hp⟩ := List.mem_flatMap.1 hp
    obtain ⟨term, -, rfl⟩ := List.mem_map.1 hp
    rfl

/-- The predicates that perform outer joins are those of the graph, in its order. -/
theorem predicates_filter_exclusive (query : Query) (graph : JoinGraph) :
    (query.predicates graph).filter (·.exclusive) = graph.outerJoins.map OuterJoin.toPredicate := by
  have same : ((fun p : Predicate => p.exclusive) ∘ waiting graph.outerJoins) = (·.exclusive) := by
    funext p
    show (waiting graph.outerJoins p).exclusive = p.exclusive
    unfold waiting
    split <;> rfl
  rw [predicates_eq, List.filter_map, same, addAll_filter_exclusive, List.nil_append, parts_filter_exclusive,
    List.map_map]
  rfl

/-- The predicates of a query have the terms of its filter and of the conditions of its joins. -/
theorem predicates_terms_perm (query : Query) (graph : JoinGraph) :
    ((query.predicates graph).flatMap fun p => termsOf p.condition).Perm
      ((query.filter.toList ++ graph.conditions).flatMap fun e => termsOf e.simplify) := by
  have waiting_condition (p : Predicate) : (waiting graph.outerJoins p).condition = p.condition := by
    unfold waiting; split <;> rfl
  have own (e : Expr) (f : Expr → Predicate) (hf : ∀ term, (f term).condition = term) :
      ((termsOf e).map f).flatMap (fun p => termsOf p.condition) = termsOf e := by
    rw [List.flatMap_map]
    simp only [hf]
    exact flatMap_termsOf fun term h => h
  have hscoped (inside : SortedSet Nat) (scope : TableSet) (term : Expr) :
      (ofScopedCondition term inside scope).condition = term := by
    unfold ofScopedCondition; dsimp only; split <;> rfl
  have houter : ((graph.outerJoins.flatMap OuterJoin.parts).flatMap fun p => termsOf p.condition).Perm
      (graph.outerJoins.flatMap OuterJoin.terms) := by
    rw [List.flatMap_assoc]
    exact List.Perm.flatMap_left _ fun j _ => j.parts_terms_perm
  rw [predicates_eq, List.flatMap_map]
  simp only [waiting_condition]
  refine (addAll_terms_perm _ _).trans ?_
  rw [List.nil_append, parts, List.flatMap_append, List.flatMap_append, JoinGraph.conditions,
    List.flatMap_append, List.flatMap_append, ← List.append_assoc, List.flatMap_map]
  refine List.Perm.append (.of_eq ?_) (houter.trans (.of_eq ?_))
  · rw [List.flatMap_assoc, List.flatMap_assoc]
    congr 1
    · exact List.flatMap_congr fun e _ => own _ _ fun _ => rfl
    · exact List.flatMap_congr fun f _ => own _ _ (hscoped _ _)
  · rw [List.flatMap_assoc]
    exact List.flatMap_congr fun j _ => j.terms_eq

end Query

end JoinPlanner
