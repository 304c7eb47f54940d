import JoinPlanner.Proofs.Rows.InnerPlan

/-!
# The meaning of a plan

A plan that is built of a query without outer joins has the rows of the product of the query's relations
that satisfy its filter and all its join conditions (`Problem.build_rows`), whatever the order of the
predicates and the draws.
-/

namespace JoinPlanner

open Predicate Assembly

namespace Assembly

variable {a : Assembly}

/-- The joins of an assembly that perform a predicate are inner ones. -/
def JoinsInner (n : Assembly) : Prop := ∀ p kind left right, n = join p kind left right → kind = .inner

theorem innerPlan_tree (h : ∀ n ∈ a.nodes, n.JoinsInner) : a.tree.InnerPlan := by
  induction a with
  | relation r => exact .aliased _ _
  | select p path input ih => exact .select _ _ (ih fun n hn => h n (.tail _ hn))
  | product left right ihl ihr =>
    exact .join (.inl rfl) _ _ (ihl fun n hn => h n (.tail _ (List.mem_append_left _ hn)))
      (ihr fun n hn => h n (.tail _ (List.mem_append_right _ hn)))
  | join p kind left right ihl ihr =>
    exact .join (.inr (h _ (.head _) p kind left right rfl)) _ _
      (ihl fun n hn => h n (.tail _ (List.mem_append_left _ hn)))
      (ihr fun n hn => h n (.tail _ (List.mem_append_right _ hn)))

theorem Reached.joinsInner {relations : List Relation} {predicates pending : List Predicate}
    {as : List Assembly} (hplain : ∀ p ∈ predicates, p.Plain) (h : Reached relations predicates as pending) :
    ∀ b ∈ as, ∀ n ∈ b.nodes, n.JoinsInner := by
  refine forall_nodes (fun n hn => ?_) (fun {as pending others p a} h _ hp ready fuses => ?_) h
  · rintro p kind left right rfl
    cases hn
  · intro q kind left right ha
    have hmem : p ∈ predicates := by
      have hpending : p ∈ pending := (Predicate.perm_of_mem_splits hp).mem_iff.2 (.head _)
      exact h.predicates_perm.mem_iff.1 (List.mem_append_right _ hpending)
    have hright : p.rightTables = none := by
      rw [Predicate.rightTables, (hplain p hmem).exclusive]
      rfl
    rw [fuses.kind_eq hright ha, (hplain p hmem).joinKind]

theorem Closes.innerPlan {as : List Assembly} {core : Expr} (h : Closes as core)
    (has : ∀ b ∈ as, ∀ n ∈ b.nodes, n.JoinsInner) : core.InnerPlan := by
  cases h with
  | none => exact .singleRow
  | paired h =>
    refine innerPlan_tree (h.composed.forall_nodes (fun n hn => ?_) has)
    rintro p kind left right rfl
    cases hn

end Assembly

namespace Problem

variable {σ : Type} [RandomSource σ] {problem : Problem} {query : Query} {graph : JoinGraph}
  {predicates : List Predicate} {core : Expr}

theorem innerPlan_withStatics (h : core.InnerPlan) : (problem.withStatics core).InnerPlan := by
  unfold withStatics
  split
  · exact h
  · exact .guard _ h

theorem rows_withOrder (tree : Expr) (db : Database) (call : String → List Value → Option Value) :
    (problem.withOrder tree).rows db call = tree.rows db call := by
  rcases problem.withOrder_cases tree with heq | ⟨keys, path, heq⟩ <;> rw [heq]
  rfl

/-- A plan of a query without outer joins has the rows of the product of the query's relations of which
the simple forms of its filter and of all join conditions are true. -/
theorem build_rows (hg : JoinGraph.ofTree? query.graph = .ok graph) (hinner : graph.outerJoins = [])
    (hposes : problem.Poses query graph) {order : List Nat}
    (horder : order.Perm (List.range problem.predicates.length)) {s : σ} {tree : Expr}
    (h : problem.build order s = .ok tree) (db : Database) (call : String → List Value → Option Value) :
    tree.rows db call = (db.product query.leaves).filter fun row =>
      query.conditions.all fun e => e.simplify.holds (row.valuation call) := by
  obtain ⟨predicates, as, core, hperm, hreach, hcloses, rfl⟩ := build_eq_ok_of_perm_range horder h
  rw [hposes.relations] at hreach
  have hn := JoinGraph.nested_of_ofTree? hg
  obtain ⟨hleaves, -, hconj, hground⟩ := closes_conserves hg hposes hperm hreach hcloses
  have hplain : ∀ p ∈ predicates, p.Plain := by
    intro p hp
    rcases hposes.ordinary_or hn (hperm.mem_iff.1 hp) with ho | ⟨j, hj, -⟩
    · exact ho.toPlain
    · rw [hinner] at hj
      cases hj
  have hplan : (problem.withStatics core).InnerPlan :=
    innerPlan_withStatics (hcloses.innerPlan (hreach.joinsInner hplain))
  have hnodup : ((problem.withStatics core).leaves.map (·.1)).Nodup := by
    rw [leaves_withStatics, (hleaves.map _).nodup_iff, List.map_map]
    exact hn.names
  have hterms : ((problem.withStatics core).conditions.flatMap Expr.conjuncts).Perm
      (query.conditions.flatMap fun e => termsOf e.simplify) := by
    rw [conjuncts_withStatics]
    exact ((hconj.trans (hperm.flatMap_right _)).append_left _).trans (hposes.terms_perm hg)
  rw [rows_withOrder, hplan.rows_eq (grounded_withStatics (hposes.statics_terms hn).2 hground) hnodup,
    Database.product_perm (leaves_withStatics ▸ hleaves.trans (query.leaves_perm hg)) hnodup]
  refine Multiset.filter_congr fun row _ => ?_
  have hall := hterms.all_eq (f := Expr.holds (row.valuation call))
  rw [List.all_flatMap, List.all_flatMap] at hall
  simp only [Expr.all_conjuncts, Expr.all_termsOf] at hall
  rw [← hall]

/-- `(a JOIN b ON a.x = b.x) CROSS JOIN c WHERE a.y = c.y AND b.z = 3`. -/
def innerJoins : Query where
  graph :=
    let relation (n : String) : Expr := .relation ⟨none, n⟩ ⟨none, n⟩
    let on : Expr := .equals (.column ⟨⟨none, "a"⟩, "x"⟩) (.column ⟨⟨none, "b"⟩, "x"⟩)
    some (.join .cartesian (.join .inner (relation "a") (relation "b") (some on) {}) (relation "c") none {})
  filter := some (.apply .and [.equals (.column ⟨⟨none, "a"⟩, "y"⟩) (.column ⟨⟨none, "c"⟩, "y"⟩),
    .equals (.column ⟨⟨none, "b"⟩, "z"⟩) (.literal (.int 3))])

/-- One row in every table, with 3 in every column. -/
def threes : Database := fun _ => {fun _ => .int 3}

theorem innerJoins_order :
    [2, 0, 1].Perm (List.range (innerJoins.problem innerJoins.joinGraph).predicates.length) := by
  decide +kernel

theorem exists_build_innerJoins : ∃ tree,
    (innerJoins.problem innerJoins.joinGraph).build [2, 0, 1] (Generator.ofSeed 7) = .ok tree := by
  have built : ((innerJoins.problem innerJoins.joinGraph).build [2, 0, 1]
      (Generator.ofSeed 7)).isOk = true := by decide +kernel
  exact ok_of_isOk built

theorem build_rows_innerJoins : ∃ tree,
    (innerJoins.problem innerJoins.joinGraph).build [2, 0, 1] (Generator.ofSeed 7) = .ok tree ∧
    (tree.rows threes fun _ _ => none).card = 1 := by
  obtain ⟨tree, h⟩ := exists_build_innerJoins
  have hrows := build_rows (Query.ofTree?_joinGraph (by decide)) rfl (Query.poses_problem _ _)
    innerJoins_order h threes fun _ _ => none
  refine ⟨tree, h, ?_⟩
  rw [hrows]
  decide +kernel

end Problem

end JoinPlanner
