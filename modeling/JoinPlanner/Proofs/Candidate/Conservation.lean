import JoinPlanner.Proofs.Candidate.Placement

/-!
# What a plan keeps of its query

A plan that is built has every relation of the query at one leaf, and applies every conjunct of the
query once, where all that it reads is at hand. The leaves and the conditions of a tree are read off the
query's joins and off the plan alike (`Expr.leaves`, `Expr.conditions`).
-/

namespace JoinPlanner

namespace Expr

def joins : Expr → Nat
  | join _ left right _ _ => left.joins + right.joins + 1
  | filter _ child => child.joins
  | _ => 0

/-- Every predicate of a tree reads only relations of its input. -/
def Grounded : Expr → Prop
  | join _ left right on _ => left.Grounded ∧ right.Grounded ∧
      ∀ e ∈ on, ∀ c ∈ e.columns, c.table ∈ left.relations ∪ right.relations
  | filter (.select p _) child => child.Grounded ∧ ∀ c ∈ p.columns, c.table ∈ child.relations
  | filter (.guard p) child => child.Grounded ∧ ∀ c ∈ p.columns, c.table ∈ child.relations
  | filter _ child => child.Grounded
  | _ => True

end Expr

namespace Query

/-- The aliases of a query with what they stand for. -/
def leaves (query : Query) : List (TableName × Expr) := query.graph.toList.flatMap Expr.leaves

/-- The filter of a query and the conditions of its joins. -/
def conditions (query : Query) : List Expr :=
  query.filter.toList ++ query.graph.toList.flatMap Expr.conditions

variable {query : Query} {graph : JoinGraph}

theorem leaves_perm (hg : JoinGraph.ofTree? query.graph = .ok graph) :
    (graph.relations.map Relation.leaf).Perm query.leaves := by
  unfold leaves
  obtain ⟨-, ⟨hnone, rfl⟩ | ⟨tree, htree, hflat⟩⟩ := JoinGraph.ofTree?_eq_ok hg
  · rw [hnone]; exact .refl _
  · rw [htree, Option.toList_some, List.flatMap_singleton]
    exact hflat.leaves_perm

theorem conditions_perm (hg : JoinGraph.ofTree? query.graph = .ok graph) :
    (query.filter.toList ++ graph.conditions).Perm query.conditions := by
  unfold conditions
  refine List.Perm.append_left _ ?_
  obtain ⟨-, ⟨hnone, rfl⟩ | ⟨tree, htree, hflat⟩⟩ := JoinGraph.ofTree?_eq_ok hg
  · rw [hnone]; exact .refl _
  · rw [htree, Option.toList_some, List.flatMap_singleton]
    exact hflat.conditions_perm

end Query

open Predicate

/-- A join has the terms of its condition, and no condition if that is literally true. -/
theorem Predicate.flatMap_on {e : Expr} (h : e.isTrueLiteral = true ∨ termsOf e = e.conjuncts) :
    (if e.isTrueLiteral then none else some e).toList.flatMap Expr.conjuncts = termsOf e := by
  by_cases ht : e.isTrueLiteral = true
  · rw [if_pos ht, termsOf, conjuncts_of_isTrueLiteral ht, List.filter_singleton, ht]
    rfl
  · rw [if_neg ht, Option.toList_some, List.flatMap_singleton, h.resolve_left ht]

namespace Assembly

variable {a : Assembly}

theorem mem_relations_tree {t : TableName} : t ∈ a.tree.relations ↔ t ∈ a.tables := by
  induction a with
  | relation r => exact Iff.rfl
  | select p path input ih => exact ih
  | product left right ihl ihr =>
    show t ∈ left.tree.relations ∪ right.tree.relations ↔ t ∈ left.tables ∪ right.tables
    rw [SortedSet.mem_union, SortedSet.mem_union, ihl, ihr]
  | join p kind left right ihl ihr =>
    show t ∈ left.tree.relations ∪ right.tree.relations ↔ t ∈ left.tables ∪ right.tables
    rw [SortedSet.mem_union, SortedSet.mem_union, ihl, ihr]

theorem leaves_tree (a : Assembly) : a.tree.leaves = a.relations.map Relation.leaf := by
  induction a with
  | relation r => rfl
  | select p path input ih => exact ih
  | product left right ihl ihr =>
    show left.tree.leaves ++ right.tree.leaves = _
    rw [ihl, ihr, relations, List.map_append]
  | join p kind left right ihl ihr =>
    show left.tree.leaves ++ right.tree.leaves = _
    rw [ihl, ihr, relations, List.map_append]

theorem joins_tree (a : Assembly) : a.tree.joins + 1 = a.relations.length := by
  induction a with
  | relation r => rfl
  | select p path input ih => exact ih
  | product left right ihl ihr =>
    show left.tree.joins + right.tree.joins + 1 + 1 = _
    rw [relations, List.length_append]
    omega
  | join p kind left right ihl ihr =>
    show left.tree.joins + right.tree.joins + 1 + 1 = _
    rw [relations, List.length_append]
    omega

/-- The condition at a node has no literally true conjunct, unless it is the whole condition of a join, and
reads only relations below. -/
structure Kept (n : Assembly) : Prop where
  terms : ∀ p, n.predicate? = some p →
    p.condition.isTrueLiteral = true ∨ termsOf p.condition = p.condition.conjuncts
  select : ∀ p path input, n = select p path input → termsOf p.condition = p.condition.conjuncts
  reads : ∀ p, n.predicate? = some p → ∀ c ∈ p.condition.columns, c.table ∈ n.tables

/-- The conjuncts of a plan are the terms of the predicates applied in it. -/
theorem conjuncts_tree (h : ∀ n ∈ a.nodes, n.Kept) :
    a.tree.conditions.flatMap Expr.conjuncts = a.predicates.flatMap fun p => termsOf p.condition := by
  induction a with
  | relation r => rfl
  | select p path input ih =>
    show (p.condition :: input.tree.conditions).flatMap _ = _
    rw [predicates, List.flatMap_cons, List.flatMap_cons, (h _ (.head _)).select p path input rfl,
      ih fun n hn => h n (.tail _ hn)]
  | product left right ihl ihr =>
    show ([] ++ (left.tree.conditions ++ right.tree.conditions)).flatMap _ = _
    rw [List.nil_append, predicates, List.flatMap_append, List.flatMap_append,
      ihl fun n hn => h n (.tail _ (List.mem_append_left _ hn)),
      ihr fun n hn => h n (.tail _ (List.mem_append_right _ hn))]
  | join p kind left right ihl ihr =>
    show ((if p.condition.isTrueLiteral then none else some p.condition).toList ++
      (left.tree.conditions ++ right.tree.conditions)).flatMap _ = _
    rw [predicates, List.flatMap_cons, List.flatMap_append, List.flatMap_append, List.flatMap_append,
      flatMap_on ((h _ (.head _)).terms p rfl),
      ihl fun n hn => h n (.tail _ (List.mem_append_left _ hn)),
      ihr fun n hn => h n (.tail _ (List.mem_append_right _ hn))]

theorem grounded_tree (h : ∀ n ∈ a.nodes, n.Kept) : a.tree.Grounded := by
  induction a with
  | relation r => trivial
  | select p path input ih =>
    refine ⟨ih fun n hn => h n (.tail _ hn), fun c hc => ?_⟩
    exact mem_relations_tree.2 ((h _ (.head _)).reads p rfl c hc)
  | product left right ihl ihr =>
    refine ⟨ihl fun n hn => h n (.tail _ (List.mem_append_left _ hn)),
      ihr fun n hn => h n (.tail _ (List.mem_append_right _ hn)), fun e he => ?_⟩
    cases he
  | join p kind left right ihl ihr =>
    refine ⟨ihl fun n hn => h n (.tail _ (List.mem_append_left _ hn)),
      ihr fun n hn => h n (.tail _ (List.mem_append_right _ hn)), fun e he c hc => ?_⟩
    have hcond : e = p.condition := by
      split at he
      · cases he
      · exact (Option.some.inj he).symm
    subst hcond
    exact (mem_relations_tree (a := join p kind left right)).2 ((h _ (.head _)).reads p rfl c hc)

end Assembly

open Assembly

namespace Problem

variable {σ : Type} [RandomSource σ] {problem : Problem} {query : Query} {graph : JoinGraph}
  {predicates : List Predicate} {core : Expr}

/-! ### On top of the assembly -/

theorem leaves_withStatics : (problem.withStatics core).leaves = core.leaves := by
  unfold withStatics
  split <;> rfl

theorem joins_withStatics : (problem.withStatics core).joins = core.joins := by
  unfold withStatics
  split <;> rfl

theorem conjuncts_withStatics : (problem.withStatics core).conditions.flatMap Expr.conjuncts =
    problem.statics.flatMap Expr.conjuncts ++ core.conditions.flatMap Expr.conjuncts := by
  unfold withStatics
  split
  · next h => rw [List.isEmpty_iff.1 h]; rfl
  · show (.conjunction problem.statics :: core.conditions).flatMap Expr.conjuncts = _
    rw [List.flatMap_cons, Expr.conjuncts_conjunction_eq_flatMap]

theorem grounded_withStatics (hstatics : ∀ e ∈ problem.statics, e.columns = []) (h : core.Grounded) :
    (problem.withStatics core).Grounded := by
  unfold withStatics
  split
  · exact h
  · refine ⟨h, fun c hc => ?_⟩
    rw [Expr.columns_conjunction, List.flatMap_eq_nil_iff.2 hstatics] at hc
    cases hc

/-- The sort on top of a plan changes neither its leaves nor its conditions. -/
theorem withOrder_cases (problem : Problem) (tree : Expr) : problem.withOrder tree = tree ∨
    ∃ keys path, problem.withOrder tree = .filter (.sort keys path) tree := by
  unfold withOrder
  split
  · exact .inl rfl
  · exact .inr ⟨_, _, rfl⟩

theorem Poses.statics_terms (h : problem.Poses query graph) (hn : graph.Nested) :
    problem.statics.flatMap Expr.conjuncts =
        ((query.predicates graph).filter (·.isStatic)).flatMap (fun p => termsOf p.condition) ∧
      ∀ e ∈ problem.statics, e.columns = [] := by
  have static {p : Predicate} (hp : p ∈ (query.predicates graph).filter (·.isStatic)) :
      p.Ordinary graph.outerJoins ∧ ∀ t, t ∉ p.tables := by
    obtain ⟨hmem, hs⟩ := List.mem_filter.1 hp
    rw [Predicate.isStatic, Bool.and_eq_true, Bool.and_eq_true, Bool.not_eq_true'] at hs
    rcases Query.ordinary_or_of_mem hn hmem with ho | ⟨j, -, rfl⟩
    · exact ⟨ho, SortedSet.isEmpty_iff.1 hs.1.1⟩
    · cases hs.1.2
  rw [h.statics]
  constructor
  · rw [List.flatMap_map]
    exact List.flatMap_congr fun p hp => (static hp).1.terms.symm
  · intro e he
    obtain ⟨p, hp, rfl⟩ := List.mem_map.1 he
    obtain ⟨ho, hnone⟩ := static hp
    refine List.eq_nil_iff_forall_not_mem.2 fun c hc => ?_
    exact hnone _ (ho.reads _ (Expr.mem_tables.2 ⟨c, hc, rfl⟩))

theorem Poses.terms_perm (h : problem.Poses query graph) (hg : JoinGraph.ofTree? query.graph = .ok graph) :
    (problem.statics.flatMap Expr.conjuncts ++ problem.predicates.flatMap fun p => termsOf p.condition).Perm
      (query.conditions.flatMap fun e => termsOf e.simplify) := by
  have hothers : (problem.predicates.flatMap fun p => termsOf p.condition) =
      ((query.predicates graph).filter (!·.isStatic)).flatMap fun p => termsOf p.condition := by
    rw [← h.predicates, List.flatMap_map]
    rfl
  rw [(h.statics_terms (JoinGraph.nested_of_ofTree? hg)).1, hothers, ← List.flatMap_append]
  refine ((List.filter_append_perm _ _).flatMap_right _).trans ?_
  exact (query.predicates_terms_perm graph).trans ((query.conditions_perm hg).flatMap_right _)

theorem Poses.kept (h : problem.Poses query graph) (hn : graph.Nested) {n : Assembly} (happ : n.Applied)
    (hmem : ∀ p, n.predicate? = some p → p ∈ problem.predicates) : n.Kept := by
  refine ⟨fun p hp => ?_, fun p path input hsel => ?_, fun p hp c hc => ?_⟩
  · rcases h.ordinary_or hn (hmem p hp) with ho | ⟨j, -, hperf⟩
    · exact .inr ho.terms
    · rw [hperf.condition]
      exact j.condition_eq_true_or
  · rcases h.ordinary_or hn (hmem p (hsel ▸ rfl)) with ho | ⟨j, -, hperf⟩
    · exact ho.terms
    · cases (happ.select p path input hsel).symm.trans hperf.rightTables
  · refine happ.reads p hp _ ?_
    have hct : c.table ∈ p.condition.tables := Expr.mem_tables.2 ⟨c, hc, rfl⟩
    rcases h.ordinary_or hn (hmem p hp) with ho | ⟨j, -, hperf⟩
    · exact ho.reads _ hct
    · rw [hperf.tables]
      rw [hperf.condition] at hct
      exact OuterJoin.mem_neededTables_of_mem_condition hct

/-- What the assemblies of a query that are reached last are closed to. -/
theorem closes_conserves (hg : JoinGraph.ofTree? query.graph = .ok graph) (hposes : problem.Poses query graph)
    (hperm : predicates.Perm problem.predicates) {as : List Assembly}
    (hreach : Reached graph.relations predicates as []) (hcloses : Closes as core) :
    core.leaves.Perm (graph.relations.map Relation.leaf) ∧ core.joins = graph.relations.length - 1 ∧
      (core.conditions.flatMap Expr.conjuncts).Perm (predicates.flatMap fun p => termsOf p.condition) ∧
      core.Grounded := by
  cases hcloses with
  | none =>
    rw [← hreach.sound.relations.nil_eq, ← hreach.predicates_perm.nil_eq]
    exact ⟨.refl _, rfl, .refl _, trivial⟩
  | @paired _ a hpaired =>
    obtain ⟨hrel, happlied, happ⟩ := hpaired.of_reached hreach
    have hkept : ∀ n ∈ a.nodes, n.Kept := by
      intro n hn
      refine hposes.kept (JoinGraph.nested_of_ofTree? hg) (happ n hn) fun p hp => ?_
      exact (happlied.trans hperm).mem_iff.1 (mem_predicates.2 ⟨n, hn, hp⟩)
    have hjoins := a.joins_tree
    rw [hrel.length_eq] at hjoins
    refine ⟨a.leaves_tree ▸ hrel.map _, by omega, ?_, grounded_tree hkept⟩
    rw [conjuncts_tree hkept]
    exact happlied.flatMap_right _

/-- Every plan that is built of a query, in whatever order and with whatever draws, has each relation of the
query at one leaf and each conjunct of the query once, above the relations that it reads. -/
theorem build_conserves (hg : JoinGraph.ofTree? query.graph = .ok graph) (hposes : problem.Poses query graph)
    {order : List Nat} (horder : order.Perm (List.range problem.predicates.length)) {s : σ} {tree : Expr}
    (h : problem.build order s = .ok tree) :
    tree.leaves.Perm query.leaves ∧ (tree.leaves.map (·.1)).Nodup ∧ tree.joins = query.leaves.length - 1 ∧
      (tree.conditions.flatMap Expr.conjuncts).Perm (query.conditions.flatMap fun e => termsOf e.simplify) ∧
      tree.Grounded := by
  obtain ⟨predicates, as, core, hperm, hreach, hcloses, htree⟩ := build_eq_ok_of_perm_range horder h
  rw [hposes.relations] at hreach
  have hn := JoinGraph.nested_of_ofTree? hg
  obtain ⟨hleaves, hjoins, hconj, hground⟩ := closes_conserves hg hposes hperm hreach hcloses
  have hlen : query.leaves.length = graph.relations.length := by
    rw [← (query.leaves_perm hg).length_eq, List.length_map]
  have hnodup : (core.leaves.map (·.1)).Nodup := by
    rw [(hleaves.map _).nodup_iff, List.map_map]
    exact hn.names
  have hall : ((problem.withStatics core).conditions.flatMap Expr.conjuncts).Perm
      (query.conditions.flatMap fun e => termsOf e.simplify) := by
    rw [conjuncts_withStatics]
    exact ((hconj.trans (hperm.flatMap_right _)).append_left _).trans (hposes.terms_perm hg)
  have hground := grounded_withStatics (hposes.statics_terms hn).2 hground
  have hcore : (problem.withStatics core).leaves.Perm query.leaves ∧
      ((problem.withStatics core).leaves.map (·.1)).Nodup ∧
      (problem.withStatics core).joins = query.leaves.length - 1 := by
    rw [leaves_withStatics, joins_withStatics, hlen]
    exact ⟨hleaves.trans (query.leaves_perm hg), hnodup, hjoins⟩
  subst htree
  rcases problem.withOrder_cases (problem.withStatics core) with heq | ⟨keys, path, heq⟩ <;> rw [heq]
  · exact ⟨hcore.1, hcore.2.1, hcore.2.2, hall, hground⟩
  · exact ⟨hcore.1, hcore.2.1, hcore.2.2, hall, hground⟩

theorem build_conserves_nested : ∃ tree : Expr,
    (nestedJoins.problem nestedJoins.joinGraph).build [3, 0, 2, 1] (Generator.ofSeed 5) = .ok tree ∧
    tree.leaves.length = 4 ∧ tree.joins = 3 ∧ (tree.conditions.flatMap Expr.conjuncts).length = 4 ∧
    tree.Grounded := by
  obtain ⟨tree, h⟩ := exists_build_nestedJoins
  obtain ⟨hleaves, -, hjoins, hconj, hground⟩ := build_conserves (Query.ofTree?_joinGraph (by decide))
    (Query.poses_problem _ _) nestedJoins_order h
  refine ⟨tree, h, ?_, hjoins, ?_, hground⟩
  · rw [hleaves.length_eq]
    rfl
  · rw [hconj.length_eq]
    decide

end Problem

end JoinPlanner
