import JoinPlanner.Proofs.Candidate.Paths
import JoinPlanner.Proofs.Rows.Emitted

/-!
# Orders that plans deliver

The tree of an assembly has no sort, and its indexes read the relations that they stand on, so that its rows come in
its natural order. A sort goes on top unless that is the requested order: every plan that is built delivers it
(`Problem.delivers_of_build`).
-/

namespace JoinPlanner

variable {db : Database} {call : String → List Value → Option Value}

namespace Assembly

variable {a : Assembly}

theorem unsorted_tree (a : Assembly) : a.tree.Unsorted := by
  induction a with
  | relation r => trivial
  | select p path input ih => exact ih
  | product left right ihl ihr => exact ⟨ihl, ihr⟩
  | join p kind left right ihl ihr => exact ⟨ihl, ihr⟩

theorem emitted_tree (hfit : ∀ n ∈ a.nodes, n.tree.PathsFit) : a.tree.Emitted db call := by
  induction a with
  | relation r => exact Expr.emitted_aliased
  | select p path input ih =>
    cases path with
    | none => exact (ih fun n hn => hfit n (.tail _ hn)).select
    | some path =>
      have hreads : input.tree = .relation path.relation path.table := (hfit _ (.head _) path rfl).reads
      show (Expr.filter (.select p.condition (some path)) input.tree).Emitted db call
      rw [hreads]
      exact Expr.emitted_indexed
  | product left right ihl ihr => exact (ihl fun n hn => hfit n (.tail _ (List.mem_append_left _ hn))).join
  | join p kind left right ihl ihr => exact (ihl fun n hn => hfit n (.tail _ (List.mem_append_left _ hn))).join

theorem delivers_tree (hfit : ∀ node ∈ a.tree.subplans, node.PathsFit) :
    ∀ node ∈ a.tree.subplans, node.Delivers db call := by
  rw [subplans_tree] at hfit ⊢
  intro node hnode
  obtain ⟨n, hn, rfl⟩ := List.mem_map.1 hnode
  refine (emitted_tree fun n' hn' => ?_).delivers n.unsorted_tree
  exact hfit _ (List.mem_map_of_mem (nodes_trans hn' hn))

end Assembly

namespace Problem

variable {problem : Problem} {tree core : Expr}

theorem delivers_of_closes {as : List Assembly} (h : Assembly.Closes as core)
    (hfit : ∀ node ∈ core.subplans, node.PathsFit) :
    core.Unsorted ∧ ∀ node ∈ core.subplans, node.Delivers db call := by
  cases h with
  | none =>
    have hrow : (Expr.apply (.call "single_row") []).Emitted db call := ⟨_, .singleRow, rfl⟩
    refine ⟨trivial, List.forall_mem_cons.2 ⟨?_, List.forall_mem_singleton.2 (hrow.delivers trivial)⟩⟩
    exact hrow.computed.delivers trivial
  | paired h => exact ⟨Assembly.unsorted_tree _, Assembly.delivers_tree hfit⟩

theorem delivers_withStatics (hunsorted : core.Unsorted) (h : ∀ node ∈ core.subplans, node.Delivers db call) :
    (problem.withStatics core).Unsorted ∧ ∀ node ∈ (problem.withStatics core).subplans, node.Delivers db call := by
  unfold withStatics
  split
  · exact ⟨hunsorted, h⟩
  · refine ⟨hunsorted, List.forall_mem_cons.2 ⟨?_, h⟩⟩
    exact (h core core.mem_subplans_self).emitted.guard.delivers hunsorted

/-- The rows come in the requested order, as it is the natural one or that of the sort. -/
theorem delivers_withOrder (h : ∀ node ∈ tree.subplans, node.Delivers db call) :
    (∀ rows, (problem.withOrder tree).Emits db call rows → Row.Sorted call problem.order rows) ∧
      ∀ node ∈ (problem.withOrder tree).subplans, node.Delivers db call := by
  have hself := h tree tree.mem_subplans_self
  unfold withOrder
  split
  · next hskip =>
    refine ⟨fun rows hemits => (hself.sorted rows hemits).of_isPrefix ?_, h⟩
    rcases Bool.or_eq_true_iff.1 hskip with hempty | hsatisfied
    · rw [List.isEmpty_iff.1 hempty]
      exact List.nil_prefix
    · exact OrderKey.satisfies_iff.1 hsatisfied
  · exact ⟨fun _ hemits => hemits.sorted_sort, List.forall_mem_cons.2 ⟨hself.emitted.delivers_sort, h⟩⟩

variable {κ σ : Type} [CostNumber κ] [RandomSource σ]

/-- Over any contents of the tables, and whatever the order and the draws, the rows of a plan that is built of a query
come in the order that the query requests, and the rows of each of its parts in the natural order of that part. -/
theorem delivers_of_build {catalog : Catalog} {query : Query} {graph : JoinGraph} {sampleFacts : Bool}
    {s s' : Statistics κ} (hgraph : JoinGraph.ofTree? query.graph = .ok graph)
    (hproblem : (query.toProblem graph ⟨catalog, graph.baseTables, sampleFacts⟩).run.run s = (.ok problem, s'))
    {order : List Nat} {source : σ} (hbuild : problem.build order source = .ok tree) (db : Database)
    (call : String → List Value → Option Value) :
    (∀ rows, tree.Emits db call rows → Row.Sorted call query.order rows) ∧
      ∀ node ∈ tree.subplans, node.Delivers db call := by
  obtain ⟨as, core, hcloses, -, hfit, rfl⟩ := exists_closes_of_build hgraph hproblem hbuild
  rw [← (Query.equips_of_toProblem hproblem).order]
  obtain ⟨hunsorted, hdelivers⟩ := delivers_of_closes hcloses hfit
  exact delivers_withOrder (delivers_withStatics hunsorted hdelivers).2

/-- `a JOIN b ON a.x = b.x CROSS JOIN c WHERE c.z > 1 ORDER BY c.z`. -/
def streamedQuery : Query := { indexedQuery with order := [⟨.column ⟨⟨none, "c"⟩, "z"⟩, true⟩] }

/-- Two rows of `c`, and one of every other table. -/
def fourRows : Database := fun table =>
  if table.name = "c" then {fun _ => .int 3, fun _ => .int 2} else {fun _ => .int 1}

/-- The plan needs no sort. -/
theorem delivers_of_build_fourRows : ∃ problem s' tree,
    (streamedQuery.toProblem streamedQuery.joinGraph threeIndexes).run.run (default : Statistics Float) =
      (.ok problem, s') ∧ problem.build [0, 1] (Generator.ofSeed 0) = .ok tree ∧
    (tree.kindName = "Join" ∧ tree.naturalOrder = [⟨⟨⟨none, "c"⟩, "z"⟩, true⟩]) ∧
    (∀ rows, tree.Emits fourRows (fun _ _ => none) rows →
      Row.Sorted (fun _ _ => none) streamedQuery.order rows) ∧
    ∀ node ∈ tree.subplans, node.Delivers fourRows (fun _ _ => none) := by
  have hplan : (((streamedQuery.toProblem streamedQuery.joinGraph threeIndexes).run.run
      (default : Statistics Float)).1 >>= fun problem => problem.build [0, 1] (Generator.ofSeed 0)).toOption.any
      (fun tree => decide (tree.kindName = "Join" ∧ tree.naturalOrder = [⟨⟨⟨none, "c"⟩, "z"⟩, true⟩])) = true := by
    decide +kernel
  obtain ⟨problem, s', tree, hproblem, hbuild, hstreams⟩ := exists_build_of_any hplan
  exact ⟨problem, s', tree, hproblem, hbuild, of_decide_eq_true hstreams,
    delivers_of_build (Query.ofTree?_joinGraph (by decide)) hproblem hbuild fourRows fun _ _ => none⟩

end Problem

end JoinPlanner
