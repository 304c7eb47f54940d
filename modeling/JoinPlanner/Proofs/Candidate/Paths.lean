import JoinPlanner.Proofs.Candidate.Conservation

/-!
# Access paths in plans

Access paths are found for a predicate before any plan exists, and a plan takes them up by the name of a relation
only. `Problem.pathsFit_of_build`: in every plan that is built they can be used where they stand.
-/

namespace JoinPlanner

namespace Expr

/-- The parts of a plan that have rows, the plan itself first. -/
def subplans : Expr → List Expr
  | filter kind child => filter kind child :: child.subplans
  | join kind left right on hints => join kind left right on hints :: (left.subplans ++ right.subplans)
  | e => [e]

/-- The index by which a filter reads its input. -/
def filterPath? : Expr → Option AccessPath
  | filter (.select _ path) _ => path
  | _ => none

end Expr

namespace AccessPath

/-- The path probes a range, and the input of the filter is the relation that it reads, and no more. -/
structure FitsFilter (path : AccessPath) (input : Expr) : Prop where
  reads : input = .relation path.relation path.table
  ranged : path.range.isSome = true

/-- The path is for a key from every row of the other input: its first column is equated with a column there. -/
structure FitsJoin (path : AccessPath) (input other : Expr) (on : Option Expr) : Prop where
  reads : input = .relation path.relation path.table
  unranged : path.range = none
  equates : ∃ condition ∈ on, ∃ column c, path.columns.head? = some column ∧ c.table ∈ other.relations ∧
    (.equals (.column ⟨path.relation, column⟩) (.column c) ∈ condition.conjuncts ∨
      .equals (.column c) (.column ⟨path.relation, column⟩) ∈ condition.conjuncts)

/-- The path begins with the keys, and the input scans its relation first and reads it through no index. -/
structure FitsSort (path : AccessPath) (keys : List (SortKey Expr)) (input : Expr) : Prop where
  delivers : ∃ columns, columns <+: path.columns ∧
    keys = columns.map fun c => ⟨.column ⟨path.relation, c⟩, true⟩
  scanned : input.leaves.head? = some (path.relation, .table path.table)
  unindexed : ∀ node ∈ input.subplans, ∀ x ∈ node.filterPath?, x.relation ≠ path.relation

end AccessPath

/-- The access paths of a node can be used where they stand. -/
def Expr.PathsFit : Expr → Prop
  | filter (.select _ path) input => ∀ x ∈ path, x.FitsFilter input
  | filter (.sort keys path) input => ∀ x ∈ path, x.FitsSort keys input
  | join _ left right on hints =>
    (∀ x ∈ hints.leftPath, x.FitsJoin left right on) ∧ ∀ x ∈ hints.rightPath, x.FitsJoin right left on
  | _ => True

namespace AccessContext

variable {m : AccessContext} {query : Query} {graph : JoinGraph} {problem : Problem} {p : Predicate}
  {path : AccessPath} {condition : Expr}

theorem Equips.offers (h : m.Equips query graph problem) (hp : p ∈ problem.predicates) (hpath : path ∈ p.paths) :
    m.Offers p.condition path := by
  obtain ⟨q, -, hmarks⟩ := exists_of_forall₂ h.predicates hp
  rw [hmarks.condition]
  exact hmarks.paths path hpath

/-- A path without a range begins with a column that the condition equates with one of another relation. -/
theorem Offers.equates (h : m.Offers condition path) (hrange : path.range = none) :
    ∃ column c, path.columns.head? = some column ∧ c.table ≠ path.relation ∧ c ∈ condition.columns ∧
      (.equals (.column ⟨path.relation, column⟩) (.column c) ∈ condition.conjuncts ∨
        .equals (.column c) (.column ⟨path.relation, column⟩) ∈ condition.conjuncts) := by
  cases h with
  | filter _ found mem =>
    obtain ⟨i, range, -, hsome, -⟩ := exists_of_filterPaths found mem
    cases hrange.symm.trans hsome
  | join _ found mem =>
    obtain ⟨i, hserves, -, column, hcolumn, hleads⟩ := exists_of_joinPaths found mem
    have hhead : path.columns.head? = some column := by rw [hserves.columns, i.head?_columns, hleads]
    obtain ⟨l, r, hpair, hside⟩ := mem_columnsOf.1 hcolumn
    obtain ⟨hl, hr⟩ := Expr.mem_columns_of_mem_columnPairs hpair
    obtain ⟨hconjunct, hne⟩ := Expr.mem_columnPairs.1 hpair
    rw [← hserves.relation] at hside
    rcases hside with rfl | rfl
    · exact ⟨column, r, hhead, hne.symm, hr, .inl hconjunct⟩
    · exact ⟨column, l, hhead, hne, hl, .inr hconjunct⟩

/-- The base table of a path is that of its relation in the graph. -/
theorem Serves.table_eq {i : IndexDef} (h : m.Serves path.relation path i) (hbase : m.baseTables = graph.baseTables)
    (hnames : graph.names.Nodup) {r : Relation} (hr : r ∈ graph.relations) (hname : r.name = path.relation) :
    r.table = path.table := by
  have hserved := h.base
  unfold baseTable at hserved
  split at hserved
  · next table hlookup =>
    cases hserved
    obtain ⟨before, after, heq, -⟩ := List.lookup_eq_some_iff.1 hlookup
    have hmem : (path.relation, path.table) ∈ graph.baseTables := by simp [← hbase, heq]
    obtain ⟨r', hr', hentry⟩ := List.mem_map.1 hmem
    obtain ⟨hname', htable'⟩ := Prod.mk.inj hentry
    rw [← htable', List.inj_on_of_nodup_map hnames hr hr' (hname.trans hname'.symm)]
  · cases hserved

end AccessContext

namespace Predicate

variable {p : Predicate} {f : Fragment} {path : AccessPath}

theorem of_joinPath (h : p.joinPath f = some path) :
    path ∈ p.paths ∧ f.tree.aliasName? = some path.relation ∧ path.range = none := by
  obtain ⟨name, hname, hfind⟩ := Option.bind_eq_some_iff.1 h
  have hfound := List.find?_some hfind
  rw [Bool.and_eq_true, decide_eq_true_iff, Option.isNone_iff_eq_none] at hfound
  exact ⟨List.mem_of_find?_eq_some hfind, hfound.1 ▸ hname, hfound.2⟩

theorem of_mem_filterPaths (h : path ∈ p.filterPaths f) :
    path ∈ p.paths ∧ f.tree.aliasName? = some path.relation ∧ path.range.isSome = true := by
  unfold filterPaths at h
  split at h
  · next name hname =>
    obtain ⟨hmem, hfound⟩ := List.mem_filter.1 h
    rw [Bool.and_eq_true, decide_eq_true_iff] at hfound
    exact ⟨hmem, hfound.1 ▸ hname, hfound.2⟩
  · cases h

end Predicate

/-! ### Plans of assemblies -/

namespace Assembly

variable {m : AccessContext} {query : Query} {graph : JoinGraph} {problem : Problem} {a n : Assembly} {p : Predicate}
  {path : AccessPath}

theorem subplans_tree (a : Assembly) : a.tree.subplans = a.nodes.map tree := by
  induction a with
  | relation r => rfl
  | select p path input ih => exact congrArg (_ :: ·) ih
  | product left right ihl ihr =>
    show _ :: (left.tree.subplans ++ right.tree.subplans) = _
    rw [ihl, ihr, nodes, List.map_cons, List.map_append]
    rfl
  | join p kind left right ihl ihr =>
    show _ :: (left.tree.subplans ++ right.tree.subplans) = _
    rw [ihl, ihr, nodes, List.map_cons, List.map_append]
    rfl

/-- Only a relation is a bare alias. -/
theorem eq_relation {name : TableName} (h : a.tree.aliasName? = some name) : ∃ r, a = relation r ∧ r.name = name := by
  cases a with
  | relation r => exact ⟨r, rfl, Option.some.inj h⟩
  | select => cases h
  | product => cases h
  | join => cases h

section

variable (hequips : m.Equips query graph problem) (hbase : m.baseTables = graph.baseTables) (hn : graph.Nested)
  (hp : p ∈ problem.predicates) (hrelations : ∀ r ∈ a.relations, r ∈ graph.relations)
include hequips hbase hn hp hrelations

theorem reads_of_aliasName? (hpath : path ∈ p.paths) (h : a.tree.aliasName? = some path.relation) :
    a.tree = .relation path.relation path.table := by
  obtain ⟨r, rfl, hname⟩ := eq_relation h
  obtain ⟨i, hserves⟩ := (hequips.offers hp hpath).exists_serves
  have htable := hserves.table_eq hbase hn.names (hrelations r (.head _)) hname
  rw [← hname, ← htable]
  rfl

theorem fitsFilter (h : path ∈ p.filterPaths a.fragment) : path.FitsFilter a.tree := by
  obtain ⟨hpath, halias, hrange⟩ := Predicate.of_mem_filterPaths h
  exact ⟨reads_of_aliasName? hequips hbase hn hp hrelations hpath halias, hrange⟩

theorem fitsJoin {other : Assembly} (h : p.joinPath a.fragment = some path)
    (hreads : ∀ c ∈ p.condition.columns, c.table ∈ a.tables ∨ c.table ∈ other.tables) :
    path.FitsJoin a.tree other.tree (if p.condition.isTrueLiteral then none else some p.condition) := by
  obtain ⟨hpath, halias, hrange⟩ := Predicate.of_joinPath h
  refine ⟨reads_of_aliasName? hequips hbase hn hp hrelations hpath halias, hrange, ?_⟩
  obtain ⟨column, c, hhead, hne, hc, hconjunct⟩ := (hequips.offers hp hpath).equates hrange
  have hcondition : ¬p.condition.isTrueLiteral = true := fun htrue => by
    rw [Predicate.conjuncts_of_isTrueLiteral htrue] at hconjunct
    rcases hconjunct with h | h <;> rw [← List.mem_singleton.1 h] at htrue <;> cases htrue
  refine ⟨p.condition, by rw [if_neg hcondition]; rfl, column, c, hhead, ?_, hconjunct⟩
  obtain ⟨r, rfl, hname⟩ := eq_relation halias
  -- the input has no other relation, so the other column is one of the other input
  refine mem_relations_tree.2 ((hreads c hc).resolve_left fun hmem => hne ?_)
  rw [← hname]
  exact List.mem_singleton.1 (mem_tables.1 hmem)

end

theorem pathsFit_tree (hequips : m.Equips query graph problem) (hbase : m.baseTables = graph.baseTables)
    (hn : graph.Nested) (happlied : n.Applied) (hpredicate : ∀ p, n.predicate? = some p → p ∈ problem.predicates)
    (hrelations : ∀ r ∈ n.relations, r ∈ graph.relations) : n.tree.PathsFit := by
  have hkept := hequips.poses.kept hn happlied hpredicate
  cases n with
  | relation r => trivial
  | select p path input =>
    exact fun x hx =>
      fitsFilter hequips hbase hn (hpredicate p rfl) hrelations (happlied.served p path input rfl x hx)
  | product left right => exact ⟨nofun, nofun⟩
  | join p kind left right =>
    have hleft : ∀ r ∈ left.relations, r ∈ graph.relations := fun r hr => hrelations r (List.mem_append_left _ hr)
    have hright : ∀ r ∈ right.relations, r ∈ graph.relations := fun r hr => hrelations r (List.mem_append_right _ hr)
    have hreads : ∀ c ∈ p.condition.columns, c.table ∈ left.tables ∨ c.table ∈ right.tables := fun c hc =>
      SortedSet.mem_union.1 (hkept.reads p rfl c hc)
    refine ⟨fun x hx => fitsJoin hequips hbase hn (hpredicate p rfl) hleft hx hreads, fun x hx => ?_⟩
    exact fitsJoin hequips hbase hn (hpredicate p rfl) hright hx fun c hc => (hreads c hc).symm

end Assembly

namespace Expr

variable {e node : Expr} {name : TableName}

theorem mem_subplans_self (e : Expr) : e ∈ e.subplans := by
  unfold subplans
  split <;> exact .head _

theorem leaves_sublist_of_mem_subplans (h : node ∈ e.subplans) : node.leaves.Sublist e.leaves := by
  induction e using subplans.induct with
  | case1 kind child ih =>
    rcases List.mem_cons.1 h with rfl | h
    · exact .refl _
    · exact ih h
  | case2 kind left right on hints ihl ihr =>
    rcases List.mem_cons.1 h with rfl | h
    · exact .refl _
    · rcases List.mem_append.1 h with h | h
      · exact (ihl h).trans (List.sublist_append_left _ _)
      · exact (ihr h).trans (List.sublist_append_right _ _)
  | case3 e hfilter hjoin =>
    rw [subplans.eq_3 e hfilter hjoin] at h
    rw [List.mem_singleton.1 h]

theorem exists_leaf_of_firstScan (h : e.firstScan = some name) :
    ∃ source, e.leaves.head? = some (name, source) := by
  induction e using firstScan.induct with
  | case1 name source => cases h; exact ⟨source, rfl⟩
  | case2 kind left right on hints ih =>
    obtain ⟨source, hleaf⟩ := ih h
    exact ⟨source, by rw [leaves, List.head?_append, hleaf]; rfl⟩
  | case3 p path child => cases h
  | case4 kind child hkind ih => exact ih (firstScan.eq_4 kind child hkind ▸ h)
  | case5 e halias hjoin hselect hfilter =>
    rw [firstScan.eq_5 e halias hjoin hselect hfilter] at h
    cases h

theorem leaves_of_filterPath? {x : AccessPath} (hfit : node.PathsFit) (hx : x ∈ node.filterPath?) :
    node.leaves = [(x.relation, .table x.table)] := by
  unfold filterPath? at hx
  split at hx
  · have hreads := (hfit x hx).reads
    rw [leaves, hreads]
    rfl
  · cases hx

/-- What is scanned first is read through no index, as every relation is read once. -/
theorem relation_ne_of_firstScan (h : e.firstScan = some name) (hnames : (e.leaves.map (·.1)).Nodup)
    (hfit : ∀ node ∈ e.subplans, node.PathsFit) : ∀ node ∈ e.subplans, ∀ x ∈ node.filterPath?, x.relation ≠ name := by
  induction e using firstScan.induct with
  | case1 name source =>
    intro node hnode x hx
    rw [List.mem_singleton.1 hnode] at hx
    cases hx
  | case2 kind left right on hints ih =>
    intro node hnode x hx
    rw [leaves, List.map_append] at hnames
    obtain ⟨hleft, -, hapart⟩ := List.nodup_append'.1 hnames
    have hfit' := (List.forall_mem_cons.1 hfit).2
    rcases List.mem_cons.1 hnode with rfl | hnode
    · cases hx
    · rcases List.mem_append.1 hnode with hnode | hnode
      · exact ih h hleft (fun node hnode => hfit' node (List.mem_append_left _ hnode)) node hnode x hx
      · rintro rfl
        obtain ⟨source, hleaf⟩ := exists_leaf_of_firstScan (e := left) h
        have hread : (x.relation, .table x.table) ∈ right.leaves := by
          refine (leaves_sublist_of_mem_subplans hnode).subset ?_
          rw [leaves_of_filterPath? (hfit' node (List.mem_append_right _ hnode)) hx]
          exact .head _
        exact hapart (List.mem_map_of_mem (List.mem_of_mem_head? hleaf)) (List.mem_map.2 ⟨_, hread, rfl⟩)
  | case3 p path child => cases h
  | case4 kind child hkind ih =>
    intro node hnode x hx
    rcases List.mem_cons.1 hnode with rfl | hnode
    · cases kind with
      | select p path =>
        obtain rfl : path = some x := hx
        exact (hkind p x rfl).elim
      | _ => cases hx
    · exact ih (firstScan.eq_4 kind child hkind ▸ h) hnames (List.forall_mem_cons.1 hfit).2 node hnode x hx
  | case5 e halias hjoin hselect hfilter =>
    rw [firstScan.eq_5 e halias hjoin hselect hfilter] at h
    cases h

end Expr

/-! ### Plans that are built -/

namespace Problem

variable {m : AccessContext} {query : Query} {graph : JoinGraph} {problem : Problem} {tree core : Expr}

theorem fitsSort (hequips : m.Equips query graph problem) (hbase : m.baseTables = graph.baseTables)
    (hn : graph.Nested) (hleaves : tree.leaves.Perm (graph.relations.map Relation.leaf))
    (hfit : ∀ node ∈ tree.subplans, node.PathsFit) {path : AccessPath} (hpath : problem.sortPath = some path)
    (hscan : tree.firstScan = some path.relation) : path.FitsSort problem.order tree := by
  obtain ⟨i, hserves, -, hdelivers⟩ := AccessContext.exists_of_orderPath (hpath ▸ hequips.sortPath)
  obtain ⟨source, hleaf⟩ := Expr.exists_leaf_of_firstScan hscan
  obtain ⟨r, hr, hrleaf⟩ := List.mem_map.1 (hleaves.mem_iff.1 (List.mem_of_mem_head? hleaf))
  obtain ⟨hname, rfl⟩ := Prod.mk.inj hrleaf
  have hnames : (tree.leaves.map (·.1)).Nodup := by
    rw [(hleaves.map _).nodup_iff, List.map_map]
    exact hn.names
  refine ⟨hequips.order ▸ hdelivers, ?_, Expr.relation_ne_of_firstScan hscan hnames hfit⟩
  rw [hleaf, hserves.table_eq hbase hn.names hr hname]

theorem pathsFit_withStatics (hfit : ∀ node ∈ core.subplans, node.PathsFit) :
    ∀ node ∈ (problem.withStatics core).subplans, node.PathsFit := by
  unfold withStatics
  split
  · exact hfit
  · exact List.forall_mem_cons.2 ⟨trivial, hfit⟩

theorem pathsFit_withOrder (hfit : ∀ node ∈ tree.subplans, node.PathsFit)
    (hsort : ∀ path, problem.sortPath = some path → tree.firstScan = some path.relation →
      path.FitsSort problem.order tree) : ∀ node ∈ (problem.withOrder tree).subplans, node.PathsFit := by
  unfold withOrder
  split
  · exact hfit
  · refine List.forall_mem_cons.2 ⟨fun path hpath => ?_, hfit⟩
    obtain ⟨hsome, hscan⟩ := Option.filter_eq_some_iff.1 hpath
    exact hsort path hsome (of_decide_eq_true hscan)

theorem pathsFit_of_closes (hequips : m.Equips query graph problem) (hbase : m.baseTables = graph.baseTables)
    (hn : graph.Nested) {predicates : List Predicate} {as : List Assembly}
    (hpredicates : ∀ p ∈ predicates, p ∈ problem.predicates)
    (hreach : Assembly.Reached graph.relations predicates as []) (h : Assembly.Closes as core) :
    core.leaves.Perm (graph.relations.map Relation.leaf) ∧ ∀ node ∈ core.subplans, node.PathsFit := by
  cases h with
  | none =>
    rw [← hreach.sound.relations.nil_eq]
    exact ⟨.refl _, List.forall_mem_cons.2 ⟨trivial, List.forall_mem_singleton.2 trivial⟩⟩
  | @paired _ a hpaired =>
    obtain ⟨hrelations, happlied, hnodes⟩ := hpaired.of_reached hreach
    refine ⟨a.leaves_tree ▸ hrelations.map _, fun node hnode => ?_⟩
    obtain ⟨n, hmem, rfl⟩ := List.mem_map.1 (a.subplans_tree ▸ hnode)
    refine n.pathsFit_tree hequips hbase hn (hnodes n hmem) (fun p hp => ?_) fun r hr => ?_
    · exact hpredicates p (happlied.mem_iff.1 (Assembly.mem_predicates.2 ⟨n, hmem, hp⟩))
    · exact hrelations.mem_iff.1 ((Assembly.relations_sublist hmem).subset hr)

variable {κ σ : Type} [CostNumber κ] [RandomSource σ]

/-- A plan that a query comes to, by an evaluation of both steps. -/
theorem exists_build_of_any {s : Statistics κ} {order : List Nat} {source : σ} {p : Expr → Bool}
    (h : (((query.toProblem graph m).run.run s).1 >>= fun problem => problem.build order source).toOption.any p = true) :
    ∃ problem s' tree, (query.toProblem graph m).run.run s = (.ok problem, s') ∧
      problem.build order source = .ok tree ∧ p tree = true := by
  rcases hrun : (query.toProblem graph m).run.run s with ⟨result, s'⟩
  rw [hrun] at h
  obtain ⟨tree, htree, hp⟩ := exists_ok_of_any h
  obtain ⟨problem, rfl, hbuild⟩ := bind_eq_ok.1 htree
  exact ⟨problem, s', tree, rfl, hbuild, hp⟩

section

variable {catalog : Catalog} {sampleFacts : Bool} {s s' : Statistics κ}
  (hgraph : JoinGraph.ofTree? query.graph = .ok graph)
  (hproblem : (query.toProblem graph ⟨catalog, graph.baseTables, sampleFacts⟩).run.run s = (.ok problem, s'))
  {order : List Nat} {source : σ} (hbuild : problem.build order source = .ok tree)
include hgraph hproblem hbuild

/-- A plan has below its sort and the predicates without tables an assembly of the relations of the query. -/
theorem exists_closes_of_build : ∃ as core, Assembly.Closes as core ∧
    core.leaves.Perm (graph.relations.map Relation.leaf) ∧ (∀ node ∈ core.subplans, node.PathsFit) ∧
      tree = problem.withOrder (problem.withStatics core) := by
  have hequips := Query.equips_of_toProblem hproblem
  obtain ⟨predicates, as, core, hselect, hreach, hcloses, rfl⟩ := build_eq_ok hbuild
  obtain ⟨chosen, hperm, hsub⟩ := exists_sublist_of_select hselect
  rw [hequips.relations] at hreach
  obtain ⟨hleaves, hcore⟩ := pathsFit_of_closes hequips rfl (JoinGraph.nested_of_ofTree? hgraph)
    (fun p hp => hsub.subset (hperm.mem_iff.2 hp)) hreach hcloses
  exact ⟨as, core, hcloses, hleaves, hcore, rfl⟩

/-- In every plan that is built of a query, whatever the order and the draws, a filter reads through an index the
whole of the relation that the index is of, an index of a join is of a relation that is a whole input and begins
with a column that the join equates with one of the other input, and an index of the sort begins with the keys and
is of the relation that is scanned first, without an index. -/
theorem pathsFit_of_build : ∀ node ∈ tree.subplans, node.PathsFit := by
  obtain ⟨as, core, -, hleaves, hcore, rfl⟩ := exists_closes_of_build hgraph hproblem hbuild
  have hfit : ∀ node ∈ (problem.withStatics core).subplans, node.PathsFit := pathsFit_withStatics hcore
  refine pathsFit_withOrder hfit fun path hpath hscan => ?_
  exact fitsSort (Query.equips_of_toProblem hproblem) rfl (JoinGraph.nested_of_ofTree? hgraph)
    (by rwa [leaves_withStatics]) hfit hpath hscan

end

/-- A filter, the sort and both inputs of a join of the plan name an index. -/
def usesIndexes (tree : Expr) : Bool :=
  tree.subplans.any (·.filterPath?.isSome) &&
    tree.subplans.any (fun | .filter (.sort _ path) _ => path.isSome | _ => false) &&
    tree.subplans.any (fun | .join _ _ _ _ hints => hints.leftPath.isSome && hints.rightPath.isSome | _ => false)

/-- `a JOIN b ON a.x = b.x CROSS JOIN c WHERE c.z > 1 ORDER BY a.x`. -/
def indexedQuery : Query where
  graph :=
    let relation (n : String) : Expr := .relation ⟨none, n⟩ ⟨none, n⟩
    let on : Expr := .equals (.column ⟨⟨none, "a"⟩, "x"⟩) (.column ⟨⟨none, "b"⟩, "x"⟩)
    some (.join .cartesian (.join .inner (relation "a") (relation "b") (some on) {}) (relation "c") none {})
  filter := some (.inRange ⟨⟨none, "c"⟩, "z"⟩ (.comparing .gt [.int 1]))
  order := [⟨.column ⟨⟨none, "a"⟩, "x"⟩, true⟩]

/-- Three empty tables with an index each. -/
def threeIndexes : AccessContext where
  catalog :=
    let table (n c : String) : TableName × Table := (⟨none, n⟩, { columns := [c], indexes := [.ofColumns c [c]] })
    ⟨[table "a" "x", table "b" "x", table "c" "z"]⟩
  baseTables := indexedQuery.joinGraph.baseTables
  sampleFacts := false

theorem pathsFit_of_build_threeIndexes : ∃ problem s' tree,
    (indexedQuery.toProblem indexedQuery.joinGraph threeIndexes).run.run (default : Statistics Float) =
      (.ok problem, s') ∧ problem.build [0, 1] (Generator.ofSeed 2) = .ok tree ∧ usesIndexes tree = true ∧
    ∀ node ∈ tree.subplans, node.PathsFit := by
  have hplan : (((indexedQuery.toProblem indexedQuery.joinGraph threeIndexes).run.run (default : Statistics Float)).1 >>=
      fun problem => problem.build [0, 1] (Generator.ofSeed 2)).toOption.any usesIndexes = true := by
    decide +kernel
  obtain ⟨problem, s', tree, hproblem, hbuild, hindexes⟩ := exists_build_of_any hplan
  exact ⟨problem, s', tree, hproblem, hbuild, hindexes,
    pathsFit_of_build (Query.ofTree?_joinGraph (by decide)) hproblem hbuild⟩

end Problem

end JoinPlanner
