import JoinPlanner.Proofs.Candidate.Confluence
import JoinPlanner.Proofs.Predicate.Posed

/-!
# When scheduling comes to a stop

A predicate waits for the outer joins into which it reaches, but it waits by their relations, and the
right branch of an outer join around it holds the same relations. So a predicate that lies in one right
branch and reaches into another waits for the join around it, and this join waits for what lies inside
it: neither is ever ready (`Predicate.isTrapped`). Nothing else stops the scheduling of a query: the
first pending outer join in the order of the graph is ready once nothing inside it is pending, and what
lies inside it is ready unless it is trapped.
-/

namespace JoinPlanner

open Assembly Predicate

namespace Predicate

/-- Whether an ordinary predicate lies in the right branch of one outer join and reaches into the right
branch of another. -/
def isTrapped (joins : List OuterJoin) (p : Predicate) : Bool :=
  !p.exclusive && joins.any (p.inside.contains ·.id) && !(p.reachedTables joins).isEmpty

variable {joins : List OuterJoin} {p q : Predicate} {names : List TableName} {pending others : List Predicate}

theorem isTrapped_iff : p.isTrapped joins = true ↔ p.exclusive = false ∧
    (∃ j ∈ joins, j.id ∈ p.inside) ∧ ∃ k ∈ joins, p.ReachesInto k := by
  rw [isTrapped, Bool.and_eq_true, Bool.and_eq_true, Bool.not_eq_true', Bool.not_eq_true',
    SortedSet.isEmpty_eq_false_iff, List.any_eq_true, and_assoc]
  simp only [SortedSet.contains_iff, mem_reachedTables]
  refine and_congr_right fun _ => and_congr_right fun _ => ⟨?_, ?_⟩
  · rintro ⟨t, j, hj, hp, ht⟩
    exact ⟨j, hj, hp⟩
  · rintro ⟨j, hj, hp⟩
    obtain ⟨-, t, -, ht⟩ := id hp
    exact ⟨t, j, hj, hp, ht⟩

theorem not_reachesInto (hx : p.exclusive = false) (h : p.isTrapped joins = false) {j k : OuterJoin}
    (hj : j ∈ joins) (hin : j.id ∈ p.inside) (hk : k ∈ joins) : ¬ p.ReachesInto k := by
  intro hreach
  rw [isTrapped_iff.2 ⟨hx, ⟨j, hj, hin⟩, k, hk, hreach⟩] at h
  cases h

/-- Two predicates that block one another are never cleared. -/
theorem not_clears (hp : p.rightTables = none) {reached right : TableSet} (hw : p.waitsFor = some reached)
    (hq : q.rightTables = some right) {id : Nat} (hid : q.outerJoin = some id) (hin : id ∈ p.inside)
    {t : TableName} (ht : t ∈ right) (ht' : t ∈ reached) (hmemp : p ∈ pending) (hmemq : q ∈ pending) :
    ¬ Clears names pending := by
  intro h
  have hne : p ≠ q := by rintro rfl; cases hp.symm.trans hq
  induction h with
  | nil => exact absurd hmemp List.not_mem_nil
  | @apply pending others r hr free able h ih =>
    rcases List.mem_cons.1 (hr.mem_iff.1 hmemp) with rfl | hmemp'
    · rcases List.mem_cons.1 (hr.mem_iff.1 hmemq) with rfl | hmemq'
      · exact hne rfl
      · exact free.waited hp reached hw q hmemq' right hq t ht ht'
    · rcases List.mem_cons.1 (hr.mem_iff.1 hmemq) with rfl | hmemq'
      · exact free.emptied right hq id hid p hmemp' hin
      · exact ih hmemp' hmemq'

end Predicate

namespace JoinGraph.PredicatesOf

variable {graph : JoinGraph} {predicates pending others : List Predicate} {p q : Predicate} {j k : OuterJoin}

theorem exists_performs (h : graph.PredicatesOf predicates) (hp : p ∈ predicates) {right : TableSet}
    (hr : p.rightTables = some right) : ∃ j ∈ graph.outerJoins, p.Performs j ∧ right = j.right := by
  rcases h.ordinary_or p hp with ho | ⟨j, hj, hperf⟩
  · cases ho.rightTables.symm.trans hr
  · exact ⟨j, hj, hperf, Option.some.inj (hr.symm.trans hperf.rightTables)⟩

theorem performs_iff (h : graph.PredicatesOf predicates) (hp : p ∈ predicates) (hj : j ∈ graph.outerJoins) :
    p.Performs j ↔ p.outerJoin = some j.id := by
  refine ⟨Performs.outerJoin, fun hid => ?_⟩
  rcases h.ordinary_or p hp with ho | ⟨k, hk, hperf⟩
  · cases ho.outerJoin.symm.trans hid
  · have hkj : k.id = j.id := Option.some.inj (hperf.outerJoin.symm.trans hid)
    exact h.nested.eq_of_id_eq hk hj hkj ▸ hperf

theorem exists_mem_performs (h : graph.PredicatesOf predicates) (hj : j ∈ graph.outerJoins) :
    ∃ p ∈ predicates, p.Performs j := by
  obtain ⟨p, hfilter⟩ := h.performs j hj
  obtain ⟨hmem, hid⟩ := List.mem_filter.1 (hfilter ▸ List.mem_singleton_self p)
  exact ⟨p, hmem, (h.performs_iff hmem hj).2 (of_decide_eq_true hid)⟩

theorem not_mem_others (h : graph.PredicatesOf predicates) (hj : j ∈ graph.outerJoins) (hperf : p.Performs j)
    (hsub : List.Subperm (p :: others) predicates) : ∀ q ∈ others, ¬ q.Performs j := by
  intro q hq hperf'
  obtain ⟨r, hfilter⟩ := h.performs j hj
  have hlen := (hsub.filter fun p => p.outerJoin = some j.id).length_le
  have hmem : q ∈ others.filter fun p => p.outerJoin = some j.id :=
    List.mem_filter.2 ⟨hq, decide_eq_true hperf'.outerJoin⟩
  have hpos := List.length_pos_of_mem hmem
  rw [hfilter, List.filter_cons, if_pos (decide_eq_true hperf.outerJoin), List.length_cons,
    List.length_singleton] at hlen
  omega

theorem fusible (h : graph.PredicatesOf predicates) (hp : p ∈ predicates) : p.Fusible := by
  rcases h.ordinary_or p hp with ho | ⟨j, hj, hperf⟩
  · obtain ⟨t, ht⟩ := h.anchored p hp
    refine ⟨t, ht, fun right hr => ?_⟩
    cases ho.rightTables.symm.trans hr
  · obtain ⟨t, ht⟩ := (h.nested.proper j hj).exists_right
    refine ⟨t, hperf.tables ▸ OuterJoin.mem_neededTables_of_mem_right ht, fun right hr => ?_⟩
    obtain rfl := Option.some.inj (hperf.rightTables.symm.trans hr)
    exact ht

/-- An ordinary predicate that reaches into no right branch still to be joined is not blocked. -/
theorem unblocked_of_ordinary (h : graph.PredicatesOf predicates) (hsub : List.Subperm (p :: others) predicates)
    (ho : p.Ordinary graph.outerJoins)
    (hreach : ∀ q ∈ others, ∀ k ∈ graph.outerJoins, q.Performs k → ∀ j ∈ graph.outerJoins, ¬ p.ReachesInto j) :
    p.Unblocked graph.names others := by
  have hmem : p ∈ predicates := hsub.subset (.head _)
  refine ⟨(h.within p hmem).present, fun q hq right hr => ?_, fun right hr => ?_, fun right hr => ?_,
    fun _ reached hw q hq right hr => ?_⟩
  · obtain ⟨k, hk, hperf, rfl⟩ := h.exists_performs (hsub.subset (.tail _ hq)) hr
    by_cases hin : k.id ∈ p.inside
    · exact .inl ((h.within p hmem).branch k hk hin)
    · refine .inr fun t ht ht' => hreach q hq k hk hperf k hk ⟨hin, t, ht, ht'⟩
  · cases ho.rightTables.symm.trans hr
  · cases ho.rightTables.symm.trans hr
  · obtain ⟨k, hk, hperf, -⟩ := h.exists_performs (hsub.subset (.tail _ hq)) hr
    obtain ⟨j, hj, hp⟩ := ho.reaches reached hw
    exact absurd hp (hreach q hq k hk hperf j hj)

/-- An outer join is not blocked when none that is listed before it and nothing inside it is pending. -/
theorem unblocked_of_performs (h : graph.PredicatesOf predicates)
    (hsub : List.Subperm (p :: others) predicates) (hj : j ∈ graph.outerJoins) (hperf : p.Performs j)
    (hfirst : ∀ q ∈ others, ∀ k ∈ graph.outerJoins, q.Performs k → k = j ∨ j.Before k)
    (hin : ∀ q ∈ others, j.id ∉ q.inside) : p.Unblocked graph.names others := by
  have hmem : p ∈ predicates := hsub.subset (.head _)
  have spans : ∀ t ∈ p.tables, t ∈ j.spans := fun t ht => h.needs j hj t (hperf.tables ▸ ht)
  refine ⟨(h.within p hmem).present, fun q hq right hr => ?_, fun right hr => ?_, fun right hr id hid => ?_,
    fun hr => ?_⟩
  · obtain ⟨k, hk, hperf', rfl⟩ := h.exists_performs (hsub.subset (.tail _ hq)) hr
    have hne : k ≠ j := by rintro rfl; exact h.not_mem_others hj hperf hsub q hq hperf'
    have hbefore : j.Before k := (hfirst q hq k hk hperf').resolve_left hne
    rcases hbefore.nested with ⟨-, hright⟩ | ⟨-, hleft | hapart⟩
    · exact .inl fun t ht => hright t (spans t ht)
    · exact .inr fun t ht => (h.nested.proper k hk).disjoint t (hleft t (spans t ht))
    · exact .inr fun t ht ht' => hapart t (spans t ht) (OuterJoin.mem_spans.2 (.inr ht'))
  · obtain rfl := Option.some.inj (hperf.rightTables.symm.trans hr)
    obtain ⟨t, hleft, ht⟩ := OuterJoin.exists_left_mem_neededTables (h.nested.proper j hj).exists_left
    exact ⟨t, hperf.tables ▸ ht, (h.nested.proper j hj).disjoint t hleft⟩
  · obtain rfl := Option.some.inj (hperf.outerJoin.symm.trans hid)
    exact hin
  · cases hperf.rightTables.symm.trans hr

/-- Unless no outer join is pending, one is that comes before all others that are. -/
theorem exists_first (h : graph.PredicatesOf predicates) (pending : List Predicate) :
    (∀ q ∈ pending, ∀ k ∈ graph.outerJoins, ¬ q.Performs k) ∨
      ∃ j ∈ graph.outerJoins, (∃ p ∈ pending, p.outerJoin = some j.id) ∧
        ∀ q ∈ pending, ∀ k ∈ graph.outerJoins, q.Performs k → k = j ∨ j.Before k := by
  cases hfind : graph.outerJoins.find? fun j => pending.any fun p => p.outerJoin = some j.id with
  | none =>
    refine .inl fun q hq k hk hperf => ?_
    exact List.find?_eq_none.1 hfind k hk (List.any_eq_true.2 ⟨q, hq, decide_eq_true hperf.outerJoin⟩)
  | some j =>
    obtain ⟨hany, before, after, heq, hbefore⟩ := List.find?_eq_some_iff_append.1 hfind
    obtain ⟨p, hp, hid⟩ := List.any_eq_true.1 hany
    have hord := h.nested.ordered
    rw [heq, List.pairwise_append, List.pairwise_cons] at hord
    obtain ⟨-, ⟨hafter, -⟩, -⟩ := hord
    refine .inr ⟨j, heq ▸ List.mem_append_right _ (.head _), ⟨p, hp, of_decide_eq_true hid⟩, ?_⟩
    intro q hq k hk hperf
    rw [heq] at hk
    rcases List.mem_append.1 hk with hk | hk
    · have := hbefore k hk
      rw [Bool.not_eq_true', ← Bool.not_eq_true, List.any_eq_true] at this
      exact absurd ⟨q, hq, decide_eq_true hperf.outerJoin⟩ this
    · exact (List.mem_cons.1 hk).imp id fun hk => hafter k hk

/-- One of the pending predicates is not blocked, unless one is trapped. -/
theorem exists_unblocked (h : graph.PredicatesOf predicates)
    (hfree : ∀ p ∈ predicates, p.isTrapped graph.outerJoins = false) (hsub : List.Subperm pending predicates)
    (hne : pending ≠ []) : ∃ p others, pending.Perm (p :: others) ∧ p.Unblocked graph.names others := by
  have split {p : Predicate} (hp : p ∈ pending) : ∃ others, pending.Perm (p :: others) := by
    obtain ⟨others, hothers⟩ := exists_mem_splits hp
    exact ⟨others, perm_of_mem_splits hothers⟩
  rcases h.exists_first pending with hnone | ⟨j, hj, ⟨p, hp, hid⟩, hfirst⟩
  · -- no outer join is pending, so that nothing is waited for
    obtain ⟨p, hp⟩ := List.exists_mem_of_ne_nil _ hne
    obtain ⟨others, hperm⟩ := split hp
    refine ⟨p, others, hperm, ?_⟩
    rcases h.ordinary_or p (hsub.subset hp) with ho | ⟨j, hj, hperf⟩
    · refine h.unblocked_of_ordinary (hperm.symm.subperm.trans hsub) ho fun q hq k hk hperf => ?_
      exact absurd hperf (hnone q (hperm.mem_iff.2 (.tail _ hq)) k hk)
    · exact absurd hperf (hnone p hp j hj)
  · by_cases hin : ∃ q ∈ pending, j.id ∈ q.inside
    · obtain ⟨q, hq, hin⟩ := hin
      obtain ⟨others, hperm⟩ := split hq
      refine ⟨q, others, hperm, ?_⟩
      rcases h.ordinary_or q (hsub.subset hq) with ho | ⟨k, hk, hperf⟩
      · refine h.unblocked_of_ordinary (hperm.symm.subperm.trans hsub) ho fun _ _ _ _ _ k hk => ?_
        exact not_reachesInto ho.exclusive (hfree q (hsub.subset hq)) hj hin hk
      · rw [hperf.inside] at hin
        rcases hfirst q hq k hk hperf with rfl | hb
        · exact absurd hin (h.nested.proper k hk).own
        · exact absurd hin hb.not_inside
    · have hperf : p.Performs j := (h.performs_iff (hsub.subset hp) hj).2 hid
      obtain ⟨others, hperm⟩ := split hp
      have hothers : ∀ q ∈ others, q ∈ pending := fun q hq => hperm.mem_iff.2 (.tail _ hq)
      refine ⟨p, others, hperm, h.unblocked_of_performs (hperm.symm.subperm.trans hsub) hj hperf ?_ ?_⟩
      · exact fun q hq => hfirst q (hothers q hq)
      · exact fun q hq hq' => hin ⟨q, hothers q hq, hq'⟩

theorem clears_of_subperm (h : graph.PredicatesOf predicates)
    (hfree : ∀ p ∈ predicates, p.isTrapped graph.outerJoins = false) (hsub : List.Subperm pending predicates) :
    Clears graph.names pending := by
  induction hn : pending.length generalizing pending with
  | zero => rw [List.length_eq_zero_iff.1 hn]; exact .nil
  | succ n ih =>
    have hne : pending ≠ [] := by rintro rfl; cases hn
    obtain ⟨p, others, hperm, free⟩ := h.exists_unblocked hfree hsub hne
    have hlen := hperm.length_eq
    rw [List.length_cons] at hlen
    have hothers : List.Subperm others predicates :=
      (List.sublist_cons_self p others).subperm.trans (hperm.symm.subperm.trans hsub)
    exact .apply hperm free (h.fusible (hsub.subset (hperm.mem_iff.2 (.head _)))) (ih hothers (by omega))

/-- The predicates can be applied one after the other unless one of them is trapped. -/
theorem clears_iff (h : graph.PredicatesOf predicates) :
    Clears graph.names predicates ↔ ∀ p ∈ predicates, p.isTrapped graph.outerJoins = false := by
  constructor
  · intro hc p hp
    rw [← Bool.not_eq_true]
    intro htrap
    obtain ⟨hx, ⟨j, hj, hin⟩, k, hk, hreach⟩ := isTrapped_iff.1 htrap
    rcases h.ordinary_or p hp with ho | ⟨l, -, hperf⟩
    · obtain ⟨q, hq, hperf⟩ := h.exists_mem_performs hj
      obtain ⟨reached, hw, hsub⟩ := ho.waits k hk hreach
      obtain ⟨-, t, htp, htk⟩ := hreach
      have htj : t ∈ j.right := (h.within p hp).branch j hj hin t htp
      exact not_clears ho.rightTables hw hperf.rightTables hperf.outerJoin hin htj (hsub t htk) hp hq hc
    · cases hx.symm.trans hperf.exclusive
  · exact fun hfree => h.clears_of_subperm hfree (List.Subperm.refl _)

end JoinGraph.PredicatesOf

namespace Problem

variable {σ : Type} [RandomSource σ] {problem : Problem} {query : Query} {graph : JoinGraph}
  {predicates : List Predicate}

theorem Poses.forall_isTrapped_iff (h : problem.Poses query graph) (hp : predicates.Perm problem.predicates)
    (joins : List OuterJoin) : (∀ p ∈ predicates, p.isTrapped joins = false) ↔
      ∀ p ∈ query.predicates graph, p.isTrapped joins = false := by
  have bare (p : Predicate) : p.bare.isTrapped joins = p.isTrapped joins := rfl
  constructor
  · intro hall p hmem
    by_cases hs : p.isStatic = true
    · rw [Predicate.isStatic, Bool.and_eq_true, Bool.and_eq_true] at hs
      rw [← Bool.not_eq_true]
      intro htrap
      obtain ⟨-, ⟨j, -, hin⟩, -⟩ := isTrapped_iff.1 htrap
      exact SortedSet.isEmpty_iff.1 hs.2 j.id hin
    · have hmem' : p ∈ problem.predicates.map Predicate.bare := by
        rw [h.predicates, List.mem_filter, Bool.not_eq_true']
        exact ⟨hmem, Bool.eq_false_iff.2 hs⟩
      obtain ⟨q, hq, rfl⟩ := List.mem_map.1 hmem'
      rw [bare]
      exact hall q (hp.mem_iff.2 hq)
  · intro hall p hmem
    rw [← bare]
    exact hall _ (h.bare_mem (hp.mem_iff.1 hmem)).1

/-- The building of a query with fusible predicates fails only for want of a predicate that is ready. -/
theorem build_eq_error {order : List Nat} {s : σ} {e : PlanError} (hs : problem.select order = .ok predicates)
    (hfuse : ∀ p ∈ predicates, p.Fusible) (he : problem.build order s = .error e) :
    ∃ condition count trees, e = .unschedulable condition (.noneReady count trees) := by
  rw [build_of_select hs] at he
  have start : problem.relations.map Fragment.ofRelation = (problem.relations.map relation).map fragment := by
    rw [List.map_map]; rfl
  have herr : (applyPending predicates.length predicates
      (problem.relations.map .ofRelation)).run s = .error e := by
    cases ha : (applyPending predicates.length predicates (problem.relations.map .ofRelation)).run s with
    | error e' => rw [ha] at he; cases he; rfl
    | ok r => rw [ha] at he; cases he
  refine applyPending_eq_error (I := fun fragments pending => ∃ as, fragments = as.map fragment ∧
    Sound problem.relations as pending ∧ ∀ p ∈ pending, p.Fusible) ?_
    ⟨_, start, .start _ _, hfuse⟩ herr
  rintro _ pending p others s ⟨as, rfl, sound, hfuse⟩ hp ready
  have hperm := perm_of_mem_splits hp
  have free := (sound.isReady_iff hperm).1 ready
  obtain ⟨⟨next, s'⟩, happ⟩ := sound.applyTo_isOk hperm free (hfuse p (hperm.mem_iff.2 (.head _))) s
  obtain ⟨a, ha, rfl⟩ := applyTo_eq_ok happ
  exact ⟨_, s', happ, _, rfl, sound.apply hperm free ha, fun q hq => hfuse q (hperm.mem_iff.2 (.tail _ hq))⟩

/-- The building of a query succeeds, in whatever order and with whatever draws, if and only if none of
its predicates is trapped; and if it fails, then because no pending predicate is ready. -/
theorem build_isOk_iff_not_trapped (hg : JoinGraph.ofTree? query.graph = .ok graph)
    (hscoped : query.isScoped = true) (hposes : problem.Poses query graph) {order : List Nat}
    (horder : order.Perm (List.range problem.predicates.length)) (s : σ) :
    ((∃ tree, problem.build order s = .ok tree) ↔
      ∀ p ∈ query.predicates graph, p.isTrapped graph.outerJoins = false) ∧
    ∀ e, problem.build order s = .error e →
      ∃ condition count trees, e = .unschedulable condition (.noneReady count trees) := by
  obtain ⟨predicates, hs, hperm⟩ := select_of_perm_range horder
  have hpreds := hposes.predicatesOf hg hscoped hperm
  have hnames : problem.relations.map (·.name) = graph.names := by rw [hposes.relations]; rfl
  constructor
  · rw [build_isOk_iff_clears, ← hposes.forall_isTrapped_iff hperm, ← hpreds.clears_iff, hnames]
    constructor
    · rintro ⟨predicates', hs', hc⟩
      obtain rfl := Except.ok.inj (hs.symm.trans hs')
      exact hc
    · exact fun hc => ⟨predicates, hs, hc⟩
  · exact fun e he => build_eq_error hs (fun p hp => hpreds.fusible hp) he

/-- `a LEFT JOIN ((b LEFT JOIN c ON b.x = c.x) JOIN d ON t.y = d.y) ON a.x = b.x` for a table `t`. -/
def joinInBranch (t : String) : Query where
  graph :=
    let relation (n : String) : Expr := .relation ⟨none, n⟩ ⟨none, n⟩
    let equals (l r c : String) : Option Expr :=
      some (.equals (.column ⟨⟨none, l⟩, c⟩) (.column ⟨⟨none, r⟩, c⟩))
    let nested := .join .leftOuter (relation "b") (relation "c") (equals "b" "c" "x") {}
    let branch := .join .inner nested (relation "d") (equals t "d" "y") {}
    some (.join .leftOuter (relation "a") branch (equals "a" "b" "x") {})

theorem build_isOk_iff_not_trapped_inBranch :
    (¬ ∃ tree, ((joinInBranch "c").problem (joinInBranch "c").joinGraph).build [2, 0, 1] (Generator.ofSeed 7) =
      .ok tree) ∧
    ∃ tree, ((joinInBranch "b").problem (joinInBranch "b").joinGraph).build [2, 0, 1] (Generator.ofSeed 7) =
      .ok tree := by
  constructor
  · have horder : [2, 0, 1].Perm
        (List.range ((joinInBranch "c").problem (joinInBranch "c").joinGraph).predicates.length) := by decide
    rw [(build_isOk_iff_not_trapped (Query.ofTree?_joinGraph (by decide)) (by decide) (Query.poses_problem _ _)
      horder (Generator.ofSeed 7)).1]
    decide
  · have horder : [2, 0, 1].Perm
        (List.range ((joinInBranch "b").problem (joinInBranch "b").joinGraph).predicates.length) := by decide
    rw [(build_isOk_iff_not_trapped (Query.ofTree?_joinGraph (by decide)) (by decide) (Query.poses_problem _ _)
      horder (Generator.ofSeed 7)).1]
    decide

end Problem

end JoinPlanner
