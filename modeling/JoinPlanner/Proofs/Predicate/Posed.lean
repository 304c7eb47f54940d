import JoinPlanner.Proofs.Predicate.Offered
import JoinPlanner.Proofs.Predicate.Origin

/-!
# Posed problems

`Problem.Poses problem query graph`: the problem has the relations of the graph and the predicates of the
query, whatever access paths and facts they have been given. The problem that a query comes to is one
(`Query.poses_of_toProblem`), whose paths are those that marking offers (`Query.equips_of_toProblem`).
-/

namespace JoinPlanner

/-- The predicate without its access paths and its fact. -/
def Predicate.bare (p : Predicate) : Predicate := { p with paths := [], fact := none }

/-- The problem is that of the query over its join graph, up to access paths and facts. -/
structure Problem.Poses (problem : Problem) (query : Query) (graph : JoinGraph) : Prop where
  relations : problem.relations = graph.relations
  predicates : problem.predicates.map Predicate.bare = (query.predicates graph).filter (!·.isStatic)
  statics : problem.statics = ((query.predicates graph).filter (·.isStatic)).map (·.condition)

theorem StatisticsM.run_bind_eq_ok {κ α β : Type} {x : StatisticsM κ α} {f : α → StatisticsM κ β}
    {s s' : Statistics κ} {b : β} : (x >>= f).run.run s = (.ok b, s') ↔
      ∃ a s₁, x.run.run s = (.ok a, s₁) ∧ (f a).run.run s₁ = (.ok b, s') := by
  rw [ExceptT.run_bind, StateT.run_bind]
  rcases x.run.run s with ⟨⟨e⟩ | ⟨a⟩, s₁⟩
  · constructor
    · intro h; cases h
    · rintro ⟨a, s₂, h, -⟩; cases h
  · constructor
    · exact fun h => ⟨a, s₁, rfl, h⟩
    · rintro ⟨a, s₂, h, h'⟩; cases h; exact h'

theorem StatisticsM.run_lift_eq_ok {κ α : Type} {x : Except PlanError α} {a : α} {s s' : Statistics κ} :
    (liftM x : StatisticsM κ α).run.run s = (.ok a, s') ↔ x = .ok a ∧ s = s' := by
  constructor
  · intro h
    cases x <;> cases h
    exact ⟨rfl, rfl⟩
  · rintro ⟨rfl, rfl⟩
    rfl

namespace MarkM

variable {κ α β : Type} {R : Predicate × Statistics κ → Predicate × Statistics κ → Prop}

/-- The action takes a predicate and a store to related ones. -/
def Keeps (R : Predicate × Statistics κ → Predicate × Statistics κ → Prop) (x : MarkM κ α) : Prop :=
  ∀ p s, R (p, s) (((x.run.run p).run s).1.2, ((x.run.run p).run s).2)

section

variable (hrefl : ∀ a, R a a)
include hrefl

theorem keeps_pure (a : α) : Keeps R (pure a : MarkM κ α) := fun _ _ => hrefl _

variable (htrans : ∀ a b c, R a b → R b c → R a c)
include htrans

omit hrefl in
theorem Keeps.bind {x : MarkM κ α} {f : α → MarkM κ β} (hx : Keeps R x) (hf : ∀ a, Keeps R (f a)) :
    Keeps R (x >>= f) := by
  intro p s
  have h := hx p s
  rw [ExceptT.run_bind, StateT.run_bind, StateT.run_bind]
  rcases hr : (x.run.run p).run s with ⟨⟨⟨e⟩ | ⟨a⟩, q⟩, s₁⟩ <;> rw [hr] at h
  · exact h
  · exact htrans _ _ _ h (hf a q s₁)

omit htrans in
theorem keeps_ofExcept_bind {x : Except PlanError α} {f : α → MarkM κ β} (hf : ∀ a, x = .ok a → Keeps R (f a)) :
    Keeps R (liftM x >>= f) := by
  intro p s
  cases x with
  | error e => exact hrefl _
  | ok a => exact hf a rfl p s

theorem keeps_forM {f : α → MarkM κ Unit} {l : List α} (hf : ∀ a ∈ l, Keeps R (f a)) : Keeps R (l.forM f) := by
  induction l with
  | nil => exact keeps_pure hrefl _
  | cons a rest ih =>
    obtain ⟨ha, hrest⟩ := List.forall_mem_cons.1 hf
    exact ha.bind htrans fun _ => ih hrest

variable [CostNumber κ] (m : AccessContext)

theorem keeps_markFor {condition : Expr} (hmarks : ∀ p s paths fact,
      (∀ path ∈ paths, path ∈ p.paths ∨ m.Offers condition path) → R (p, s) ({ p with paths, fact }, s))
    (hfact : ∀ p s pairs, R (p, s) (p, ((m.factOf pairs).run.run s).2)) :
    Keeps R (m.markFor condition : MarkM κ Unit) := by
  have hmodify {f : Predicate → Predicate} (hf : ∀ p, ∃ paths fact, f p = { p with paths, fact } ∧
      ∀ path ∈ paths, path ∈ p.paths ∨ m.Offers condition path) : Keeps R (modify f : MarkM κ Unit) := by
    intro p s
    obtain ⟨paths, fact, heq, hpaths⟩ := hf p
    show R (p, s) (f p, s)
    rw [heq]
    exact hmarks p s paths fact hpaths
  unfold AccessContext.markFor
  split
  · exact keeps_pure hrefl _
  · next name honly =>
    refine keeps_ofExcept_bind hrefl fun paths hpaths => hmodify fun p => ⟨paths, p.fact, rfl, fun path hpath => ?_⟩
    exact .inr (.filter honly hpaths hpath)
  · refine Keeps.bind htrans (keeps_forM hrefl htrans fun name hname => keeps_ofExcept_bind hrefl
      fun paths hpaths => hmodify fun p => ⟨p.paths ++ paths, p.fact, rfl, fun path hpath => ?_⟩) fun _ => ?_
    · exact (List.mem_append.1 hpath).imp_right (.join hname hpaths)
    split
    · refine Keeps.bind htrans (fun p s => hfact p s _) fun fact => hmodify fun p => ⟨p.paths, some fact, rfl, ?_⟩
      exact fun path => .inl
    · exact keeps_pure hrefl _

/-- Marking changes the paths and the fact of the predicate, and the store where the fact is found. -/
theorem keeps_mark (p : Predicate) (s : Statistics κ) (hmarks : ∀ q s paths fact,
      (∀ path ∈ paths, path ∈ q.paths ∨ m.Offers p.condition path) → R (q, s) ({ q with paths, fact }, s))
    (hfact : ∀ q s pairs, R (q, s) (q, ((m.factOf pairs).run.run s).2)) :
    R (p, s) (((m.mark.run.run p).run s).1.2, ((m.mark.run.run p).run s).2) :=
  htrans _ _ _ (hmarks p s [] none nofun) (keeps_markFor hrefl htrans m hmarks hfact _ _)

end

end MarkM

namespace AccessContext

variable {κ : Type} [CostNumber κ] {m : AccessContext} {p q : Predicate} {s s' : Statistics κ}

/-- `m.Marks p q`: the predicate `q` is `p` with a fact and with the paths that are found for its condition. -/
structure Marks (m : AccessContext) (p q : Predicate) : Prop where
  bare : q.bare = p.bare
  paths : ∀ path ∈ q.paths, m.Offers p.condition path

theorem Marks.condition (h : m.Marks p q) : q.condition = p.condition := by
  have hbare : q.bare.condition = p.bare.condition := congrArg Predicate.condition h.bare
  exact hbare

/-- What a predicate had been given before is lost, also where marking fails. -/
theorem marks_mark (m : AccessContext) (p : Predicate) (s : Statistics κ) :
    m.Marks p ((m.mark.run.run p).run s).1.2 := by
  obtain ⟨hbare, hpaths⟩ := MarkM.keeps_mark (R := fun a b : Predicate × Statistics κ => b.1.bare = a.1.bare ∧
      ∀ path ∈ b.1.paths, path ∈ a.1.paths ∨ m.Offers p.condition path)
    (fun _ => ⟨rfl, fun _ => .inl⟩)
    (fun _ _ _ hab hbc => ⟨hbc.1.trans hab.1, fun path hpath => (hbc.2 path hpath).elim (hab.2 path) .inr⟩)
    m p.bare s (fun _ _ _ _ hpaths => ⟨rfl, hpaths⟩) (fun _ _ _ => ⟨rfl, fun _ => .inl⟩)
  exact ⟨hbare, fun path hpath => (hpaths path hpath).resolve_left List.not_mem_nil⟩

theorem marks_of_marked (h : (m.marked p).run.run s = (.ok q, s')) : m.Marks p q := by
  have hmarks := m.marks_mark p s
  obtain ⟨s₀, s₁, hget, h⟩ := StatisticsM.run_bind_eq_ok.1 h
  cases hget
  rcases hr : (m.mark.run.run p).run s with ⟨⟨r, p'⟩, s₂⟩
  rw [hr] at h hmarks
  obtain ⟨-, s₃, -, h⟩ := StatisticsM.run_bind_eq_ok.1 h
  cases r with
  | error e => cases h
  | ok u =>
    cases h
    exact hmarks

theorem forall₂_marks_of_mapM {known : TableSet} {others ps : List Predicate}
    (h : (others.mapM fun p => do p.checkTables known; m.marked p :
      StatisticsM κ (List Predicate)).run.run s = (.ok ps, s')) : List.Forall₂ m.Marks others ps := by
  induction others generalizing ps s with
  | nil => cases h; exact .nil
  | cons p rest ih =>
    rw [List.mapM_cons] at h
    obtain ⟨q, s₁, hq, h⟩ := StatisticsM.run_bind_eq_ok.1 h
    obtain ⟨qs, s₂, hqs, h⟩ := StatisticsM.run_bind_eq_ok.1 h
    obtain ⟨-, s₃, -, hq⟩ := StatisticsM.run_bind_eq_ok.1 hq
    cases h
    exact .cons (marks_of_marked hq) (ih hqs)

theorem map_bare_of_marks {others ps : List Predicate} (h : List.Forall₂ m.Marks others ps) :
    ps.map Predicate.bare = others.map Predicate.bare := by
  induction h with
  | nil => rfl
  | cons hmarks _ ih => rw [List.map_cons, List.map_cons, hmarks.bare, ih]

end AccessContext

/-! ### Problems of queries -/

theorem bare_of_mem_predicates {query : Query} {graph : JoinGraph} {p : Predicate}
    (h : p ∈ query.predicates graph) : p.bare = p := by
  have hbare {p : Predicate} : p.bare = p ↔ p.paths = [] ∧ p.fact = none := by
    cases p; simp [Predicate.bare, eq_comm]
  rw [Query.predicates_eq] at h
  obtain ⟨q, hq, rfl⟩ := List.mem_map.1 h
  have hpool : q.paths = [] ∧ q.fact = none := by
    refine Predicate.forall_addAll (P := fun q => q.paths = [] ∧ q.fact = none) (fun p q hp _ _ => hp)
      (fun p hp => ?_) (fun p hp => absurd hp List.not_mem_nil) q hq
    rcases Query.mem_parts.1 hp with ⟨e, -, term, -, rfl⟩ | ⟨f, -, term, -, rfl⟩ | ⟨j, -, term, -, rfl⟩ |
      ⟨j, -, rfl⟩
    · exact ⟨rfl, rfl⟩
    · rcases Predicate.ofScopedCondition_cases term f.inside f.scope with ⟨heq, -⟩ | ⟨heq, -⟩ <;> rw [heq] <;>
        exact ⟨rfl, rfl⟩
    · exact ⟨rfl, rfl⟩
    · exact ⟨rfl, rfl⟩
  rw [hbare]
  unfold Predicate.waiting
  split <;> exact hpool

/-- The problem of a query without access paths and facts. -/
def Query.problem (query : Query) (graph : JoinGraph) : Problem where
  relations := graph.relations
  predicates := (query.predicates graph).filter (!·.isStatic)
  statics := ((query.predicates graph).filter (·.isStatic)).map (·.condition)
  order := query.order

theorem Query.poses_problem (query : Query) (graph : JoinGraph) : (query.problem graph).Poses query graph := by
  refine ⟨rfl, (List.map_congr_left fun p hp => ?_).trans (List.map_id _), rfl⟩
  exact bare_of_mem_predicates (List.mem_of_mem_filter hp)

/-- The problem has the predicates of the query with the paths found for their conditions, and the path found for its
order. -/
structure AccessContext.Equips (m : AccessContext) (query : Query) (graph : JoinGraph) (problem : Problem) : Prop where
  predicates : List.Forall₂ m.Marks ((query.predicates graph).filter (!·.isStatic)) problem.predicates
  relations : problem.relations = graph.relations
  statics : problem.statics = ((query.predicates graph).filter (·.isStatic)).map (·.condition)
  order : problem.order = query.order
  sortPath : m.orderPath query.order = .ok problem.sortPath

theorem AccessContext.Equips.poses {m : AccessContext} {query : Query} {graph : JoinGraph} {problem : Problem}
    (h : m.Equips query graph problem) : problem.Poses query graph := by
  refine ⟨h.relations, ?_, h.statics⟩
  exact (AccessContext.map_bare_of_marks h.predicates).trans (query.poses_problem graph).predicates

namespace Query

variable {κ : Type} [CostNumber κ] {query : Query} {graph : JoinGraph} {context : AccessContext} {problem : Problem}
  {s s' : Statistics κ}

theorem equips_of_toProblem (h : (query.toProblem graph context).run.run s = (.ok problem, s')) :
    context.Equips query graph problem := by
  obtain ⟨ps, s₁, hps, h⟩ := StatisticsM.run_bind_eq_ok.1 h
  obtain ⟨path, s₂, hpath, h⟩ := StatisticsM.run_bind_eq_ok.1 h
  cases h
  have hothers : ((query.predicates graph).partition (·.isStatic)).2 =
      (query.predicates graph).filter (!·.isStatic) := by
    rw [List.partition_eq_filter_filter]; rfl
  have hstatics : ((query.predicates graph).partition (·.isStatic)).1 =
      (query.predicates graph).filter (·.isStatic) := by
    rw [List.partition_eq_filter_filter]
  refine ⟨hothers ▸ AccessContext.forall₂_marks_of_mapM hps, rfl, congrArg (List.map _) hstatics, rfl, ?_⟩
  exact (StatisticsM.run_lift_eq_ok.1 hpath).1

/-- The problem that a query comes to is posed by it. -/
theorem poses_of_toProblem (h : (query.toProblem graph context).run.run s = (.ok problem, s')) :
    problem.Poses query graph :=
  (equips_of_toProblem h).poses

theorem order_of_toProblem (h : (query.toProblem graph context).run.run s = (.ok problem, s')) :
    problem.order = query.order :=
  (equips_of_toProblem h).order

end Query

namespace Predicate

def Performs (p : Predicate) (j : OuterJoin) : Prop := p.bare = j.toPredicate

namespace Performs

variable {p : Predicate} {j : OuterJoin}

theorem exclusive (h : p.Performs j) : p.exclusive = true := congrArg Predicate.exclusive h

theorem tables (h : p.Performs j) : p.tables = j.neededTables := congrArg Predicate.tables h

theorem inside (h : p.Performs j) : p.inside = j.inside := congrArg Predicate.inside h

theorem outerJoin (h : p.Performs j) : p.outerJoin = some j.id := congrArg Predicate.outerJoin h

theorem rightTables (h : p.Performs j) : p.rightTables = some j.right := congrArg Predicate.rightTables h

theorem condition (h : p.Performs j) : p.condition = j.condition := congrArg Predicate.condition h

end Performs

theorem Ordinary.rightTables {joins : List OuterJoin} {p : Predicate} (h : p.Ordinary joins) :
    p.rightTables = none := by
  rw [Predicate.rightTables, h.exclusive]
  rfl

end Predicate

/-- The predicates are those of a graph whose conditions read only relations below their joins. -/
structure JoinGraph.PredicatesOf (graph : JoinGraph) (predicates : List Predicate) : Prop where
  nested : graph.Nested
  ordinary_or : ∀ p ∈ predicates, p.Ordinary graph.outerJoins ∨ ∃ j ∈ graph.outerJoins, p.Performs j
  anchored : ∀ p ∈ predicates, ∃ t, t ∈ p.tables
  within : ∀ p ∈ predicates, p.Within graph
  needs : ∀ j ∈ graph.outerJoins, ∀ t ∈ j.neededTables, t ∈ j.spans
  performs : ∀ j ∈ graph.outerJoins, ∃ p, predicates.filter (fun p => p.outerJoin = some j.id) = [p]

namespace Problem.Poses

variable {problem : Problem} {query : Query} {graph : JoinGraph} {p : Predicate}

theorem bare_mem (h : problem.Poses query graph) (hp : p ∈ problem.predicates) :
    p.bare ∈ query.predicates graph ∧ p.isStatic = false := by
  have : p.bare ∈ problem.predicates.map Predicate.bare := List.mem_map_of_mem hp
  rw [h.predicates, List.mem_filter, Bool.not_eq_true'] at this
  exact this

theorem ordinary_or (h : problem.Poses query graph) (hn : graph.Nested) (hp : p ∈ problem.predicates) :
    p.Ordinary graph.outerJoins ∨ ∃ j ∈ graph.outerJoins, p.Performs j := by
  rcases Query.ordinary_or_of_mem hn (h.bare_mem hp).1 with ho | hj
  · have plain : p.Plain := ⟨ho.exclusive, ho.joinKind, ho.outerJoin, ho.terms, ho.reads, ho.anchored⟩
    exact .inl ⟨plain, ho.waits, ho.reaches⟩
  · exact .inr hj

theorem anchored (h : problem.Poses query graph) (hn : graph.Nested) (hp : p ∈ problem.predicates) :
    ∃ t, t ∈ p.tables := by
  rcases h.ordinary_or hn hp with ho | ⟨j, hj, hperf⟩
  · by_contra hnone
    have hstatic := (h.bare_mem hp).2
    have htables : p.tables.isEmpty = true := SortedSet.isEmpty_iff.2 fun t ht => hnone ⟨t, ht⟩
    have hinside : p.inside.isEmpty = true := SortedSet.isEmpty_iff.2 fun id hid => hnone (ho.anchored id hid)
    rw [Predicate.isStatic, htables, hinside, ho.exclusive] at hstatic
    cases hstatic
  · obtain ⟨t, ht⟩ := (hn.proper j hj).exists_right
    exact ⟨t, hperf.tables ▸ OuterJoin.mem_neededTables_of_mem_right ht⟩

theorem filter_outerJoin (h : problem.Poses query graph) (hn : graph.Nested) {j : OuterJoin}
    (hj : j ∈ graph.outerJoins) : ∃ p, problem.predicates.filter (fun p => p.outerJoin = some j.id) = [p] := by
  have hexcl : (problem.predicates.filter (·.exclusive)).map Predicate.bare =
      graph.outerJoins.map OuterJoin.toPredicate := by
    have hstatic (p : Predicate) : (p.exclusive && !p.isStatic) = p.exclusive := by
      rw [Predicate.isStatic]; cases p.exclusive <;> simp
    calc (problem.predicates.filter (·.exclusive)).map Predicate.bare
      _ = (problem.predicates.map Predicate.bare).filter (·.exclusive) := by rw [List.filter_map]; rfl
      _ = (query.predicates graph).filter fun p => p.exclusive && !p.isStatic := by
        rw [h.predicates, List.filter_filter]
      _ = graph.outerJoins.map OuterJoin.toPredicate := by
        simp only [hstatic, Query.predicates_filter_exclusive]
  have hsub : problem.predicates.filter (fun p => p.outerJoin = some j.id) =
      (problem.predicates.filter (·.exclusive)).filter fun p => p.outerJoin = some j.id := by
    rw [List.filter_filter]
    refine List.filter_congr fun p hp => ?_
    rcases h.ordinary_or hn hp with ho | ⟨k, -, hperf⟩
    · rw [ho.outerJoin]; simp
    · rw [hperf.exclusive, Bool.and_true]
  have hmap : (problem.predicates.filter fun p => p.outerJoin = some j.id).map Predicate.bare =
      [j.toPredicate] := by
    rw [hsub]
    calc ((problem.predicates.filter (·.exclusive)).filter fun p => p.outerJoin = some j.id).map Predicate.bare
      _ = ((problem.predicates.filter (·.exclusive)).map Predicate.bare).filter
          fun p => p.outerJoin = some j.id := by rw [List.filter_map]; rfl
      _ = (graph.outerJoins.filter fun k => some k.id = some j.id).map OuterJoin.toPredicate := by
        rw [hexcl, List.filter_map]; rfl
      _ = [j.toPredicate] := by
        simp only [Option.some.injEq]
        rw [hn.filter_id hj]
        rfl
  have hlen := congrArg List.length hmap
  rw [List.length_map] at hlen
  exact List.length_eq_one_iff.1 hlen

theorem predicatesOf (h : problem.Poses query graph) (hg : JoinGraph.ofTree? query.graph = .ok graph)
    (hs : query.isScoped = true) {predicates : List Predicate} (hp : predicates.Perm problem.predicates) :
    graph.PredicatesOf predicates := by
  have hn := JoinGraph.nested_of_ofTree? hg
  refine ⟨hn, fun p hmem => ?_, fun p hmem => ?_, fun p hmem => ?_, fun j hj t ht => ?_, fun j hj => ?_⟩
  · exact h.ordinary_or hn (hp.mem_iff.1 hmem)
  · exact h.anchored hn (hp.mem_iff.1 hmem)
  · have := Query.within_of_mem hg hs (h.bare_mem (hp.mem_iff.1 hmem)).1
    exact ⟨this.present, this.branch⟩
  · exact OuterJoin.mem_spans_of_mem_neededTables ((Query.scoped_graph hg hs).outerJoins j hj) ht
  · obtain ⟨p, hfilter⟩ := h.filter_outerJoin hn hj
    exact ⟨p, List.perm_singleton.1 (hfilter ▸ hp.filter _)⟩

end Problem.Poses

end JoinPlanner
