import JoinPlanner.Proofs.Candidate.Deadlock
import JoinPlanner.Proofs.Candidate.Nodes

/-!
# Where outer joins are performed

In a plan that is built every outer join has one node. Its right input is the right branch, with what
lies inside the join and nothing else; what reaches into the right branch from outside is applied above.
The invariant is `Assembly.Settled`, which holds of a node from the step that makes it on; it rests on
the guards of `Predicate.isReady` and on how the outer joins of a graph lie to one another.
-/

namespace JoinPlanner

open Predicate

namespace Assembly

/-- The predicate at a node stands in its place among the outer joins. -/
structure Settled (graph : JoinGraph) (n : Assembly) : Prop where
  outer : ∀ p left right, n = join p .leftOuter left right → ∃ j ∈ graph.outerJoins, p.Performs j
  inside : ∀ p, n.predicate? = some p → ∀ j ∈ graph.outerJoins, j.id ∈ p.inside →
    ∀ t ∈ n.tables, t ∈ j.right
  waits : ∀ p, n.predicate? = some p → ∀ j ∈ graph.outerJoins, ¬ p.Performs j → p.ReachesInto j →
    ∃ m ∈ n.descendants, m.performs j.id = true
  sides : ∀ p, n.predicate? = some p → ∀ j ∈ graph.outerJoins, p.Performs j →
    ∃ left right, n = join p .leftOuter left right ∧ (∀ t, t ∈ right.tables ↔ t ∈ j.right) ∧
      (∀ t ∈ left.tables, t ∉ j.right) ∧ ∃ t ∈ left.tables, t ∈ j.left

theorem settled_of_none {graph : JoinGraph} {n : Assembly} (h : n.predicate? = none) : n.Settled graph := by
  refine ⟨fun p left right hn => ?_, fun p hp => ?_, fun p hp => ?_, fun p hp => ?_⟩
  · rw [hn] at h; cases h
  all_goals rw [h] at hp; cases hp

end Assembly

open Assembly

namespace JoinGraph.PredicatesOf

variable {graph : JoinGraph} {predicates pending others : List Predicate} {p q : Predicate} {j k : OuterJoin}

/-- The outer joins into which an unblocked predicate reaches are not pending any more. -/
theorem not_performs_of_reachesInto (h : graph.PredicatesOf predicates) (hp : p ∈ predicates)
    {names : List TableName} (free : p.Unblocked names others) (hj : j ∈ graph.outerJoins)
    (hne : ¬ p.Performs j) (hreach : p.ReachesInto j) : ∀ q ∈ others, ¬ q.Performs j := by
  intro q hq hperf
  obtain ⟨hout, t, htp, htj⟩ := id hreach
  rcases h.ordinary_or p hp with ho | ⟨k, hk, hperf'⟩
  · obtain ⟨reached, hw, hsub⟩ := ho.waits j hj hreach
    exact free.waited ho.rightTables reached hw q hq j.right hperf.rightTables t htj (hsub t htj)
  · have hjk : j ≠ k := by rintro rfl; exact hne hperf'
    have htk : t ∈ k.spans := h.needs k hk t (hperf'.tables ▸ htp)
    rw [hperf'.inside] at hout
    rcases h.nested.before_or_before hj hk hjk with hb | hb
    · rcases hb.nested with ⟨hin, -⟩ | ⟨-, hleft | hapart⟩
      · -- `j` lies inside `k`, which waits for all that lies inside it
        refine free.emptied k.right hperf'.rightTables k.id hperf'.outerJoin q hq ?_
        rw [hperf.inside]
        exact hin
      · -- `j` lies to the left of `k`, whose predicate needs relations on both sides of its right branch
        have hsub : ∀ u ∈ p.tables, u ∈ j.right := by
          rcases free.unsplit q hq j.right hperf.rightTables with hs | hs
          · exact hs
          · exact absurd htj (hs t htp)
        obtain ⟨u, hu⟩ := (h.nested.proper k hk).exists_right
        have huj : u ∈ j.right := hsub u (hperf'.tables ▸ OuterJoin.mem_neededTables_of_mem_right hu)
        exact (h.nested.proper k hk).disjoint u (hleft u (OuterJoin.mem_spans.2 (.inr huj))) hu
      · exact hapart t (OuterJoin.mem_spans.2 (.inr htj)) htk
    · rcases hb.nested with ⟨hin, -⟩ | ⟨-, hleft | hapart⟩
      · exact hout hin
      · exact (h.nested.proper j hj).disjoint t (hleft t htk) htj
      · exact hapart t htk (OuterJoin.mem_spans.2 (.inr htj))

end JoinGraph.PredicatesOf

namespace Assembly.Reached

variable {graph : JoinGraph} {predicates pending others : List Predicate} {as : List Assembly} {p : Predicate}
  {a : Assembly} {j : OuterJoin}

theorem mem_predicates (h : Reached graph.relations predicates as pending) (hp : p ∈ pending) :
    p ∈ predicates :=
  h.predicates_perm.mem_iff.1 (List.mem_append_right _ hp)

/-- An outer join is pending as long as anything inside it is. -/
theorem exists_performs_of_inside (h : Reached graph.relations predicates as pending)
    (hpreds : graph.PredicatesOf predicates) (hp : p ∈ pending) (hj : j ∈ graph.outerJoins)
    (hin : j.id ∈ p.inside) : ∃ q ∈ pending, q.Performs j := by
  induction h with
  | start => exact hpreds.exists_mem_performs hj
  | @apply as pending others r a h hr ready fuses ih =>
    have hperm := perm_of_mem_splits hr
    obtain ⟨q, hq, hperf⟩ := ih (hperm.mem_iff.2 (.tail _ hp))
    rcases List.mem_cons.1 (hperm.mem_iff.1 hq) with rfl | hq
    · have free := (h.sound.isReady_iff hperm).1 ready
      exact absurd hin (free.emptied j.right hperf.rightTables j.id hperf.outerJoin p hp)
    · exact ⟨q, hq, hperf⟩

/-- An outer join that is not pending has been performed at a node. -/
theorem exists_node (h : Reached graph.relations predicates as pending) (hpreds : graph.PredicatesOf predicates)
    (hj : j ∈ graph.outerJoins) (hnone : ∀ q ∈ pending, ¬ q.Performs j) :
    ∃ b ∈ as, ∃ n ∈ b.nodes, ∃ q, n.predicate? = some q ∧ q.Performs j := by
  obtain ⟨q, hq, hperf⟩ := hpreds.exists_mem_performs hj
  rcases List.mem_append.1 (h.predicates_perm.mem_iff.2 hq) with hq | hq
  · obtain ⟨b, hb, hq⟩ := List.mem_flatMap.1 hq
    obtain ⟨n, hn, hq⟩ := Assembly.mem_predicates.1 hq
    exact ⟨b, hb, n, hn, q, hq, hperf⟩
  · exact absurd hperf (hnone q hq)

theorem sides_of_fuses (h : Reached graph.relations predicates as pending)
    (hpreds : graph.PredicatesOf predicates) (hp : p ∈ pending) (present : ∀ t ∈ p.tables, t ∈ graph.names)
    (fuses : p.Fuses (as.filter (·.touches p)) a) (hj : j ∈ graph.outerJoins) (hperf : p.Performs j) :
    ∃ left right, a = join p .leftOuter left right ∧ (∀ t, t ∈ right.tables ↔ t ∈ j.right) ∧
      (∀ t ∈ left.tables, t ∉ j.right) ∧ ∃ t ∈ left.tables, t ∈ j.left := by
  have hunsplit := h.sound.unsplit p hp j.right hperf.rightTables
  have touched {t : TableName} (ht : t ∈ p.tables) : ∃ b ∈ as.filter (·.touches p), t ∈ b.tables :=
    h.sound.exists_touched (present t ht) ht
  have needed {t : TableName} (ht : t ∈ j.neededTables) : t ∈ p.tables := by rw [hperf.tables]; exact ht
  generalize htouched : as.filter (·.touches p) = touched' at fuses touched
  have hsub : ∀ b ∈ touched', b ∈ as := fun b hb => List.mem_of_mem_filter (htouched ▸ hb)
  cases fuses with
  | @outerJoin right _ ls rs l r hr hl hrs =>
    obtain rfl := Option.some.inj (hr.symm.trans hperf.rightTables)
    have memRight {b : Assembly} : b ∈ r :: rs ↔ b ∈ touched' ∧ ∀ t ∈ b.tables, t ∈ j.right := by
      rw [hrs.mem_iff, List.mem_filter, SortedSet.isSubset_iff]
    have memLeft {b : Assembly} : b ∈ l :: ls ↔ b ∈ touched' ∧ ¬ ∀ t ∈ b.tables, t ∈ j.right := by
      rw [hl.mem_iff, List.mem_filter, Bool.not_eq_true', ← Bool.not_eq_true, SortedSet.isSubset_iff]
    refine ⟨l.chain ls, r.chain rs, rfl, fun t => ?_, fun t ht htj => ?_, ?_⟩
    · rw [mem_tables_chain]
      constructor
      · rintro ⟨b, hb, ht⟩
        exact (memRight.1 hb).2 t ht
      · intro ht
        obtain ⟨b, hb, htb⟩ := touched (needed (OuterJoin.mem_neededTables_of_mem_right ht))
        exact ⟨b, memRight.2 ⟨hb, fun u hu => (hunsplit b (hsub b hb)).mem_of_mem htb ht hu⟩, htb⟩
    · obtain ⟨b, hb, htb⟩ := mem_tables_chain.1 ht
      obtain ⟨hb, hnot⟩ := memLeft.1 hb
      exact hnot fun u hu => (hunsplit b (hsub b hb)).mem_of_mem htb htj hu
    · have proper := hpreds.nested.proper j hj
      obtain ⟨t, htl, ht⟩ := OuterJoin.exists_left_mem_neededTables proper.exists_left
      obtain ⟨b, hb, htb⟩ := touched (needed ht)
      refine ⟨t, mem_tables_chain.2 ⟨b, memLeft.2 ⟨hb, fun hall => ?_⟩, htb⟩, htl⟩
      exact proper.disjoint t htl (hall t htb)
  | select hr hpath => cases hr.symm.trans hperf.rightTables
  | join hr hperm => cases hr.symm.trans hperf.rightTables

/-- What lies inside an outer join is applied to relations of the right branch only. -/
theorem mem_right_of_fuses (h : Reached graph.relations predicates as pending)
    (hpreds : graph.PredicatesOf predicates) (hp : p ∈ pending) (fuses : p.Fuses (as.filter (·.touches p)) a)
    (hj : j ∈ graph.outerJoins) (hin : j.id ∈ p.inside) : ∀ t ∈ a.tables, t ∈ j.right := by
  intro t ht
  obtain ⟨r, hr, hperf⟩ := h.exists_performs_of_inside hpreds hp hj hin
  obtain ⟨b, hb, htb⟩ := fuses.mem_tables.1 ht
  obtain ⟨hb, htouch⟩ := List.mem_filter.1 hb
  obtain ⟨u, hub, hup⟩ := touches_iff.1 htouch
  have hu : u ∈ j.right := (hpreds.within p (h.mem_predicates hp)).branch j hj hin u hup
  exact (h.sound.unsplit r hr j.right hperf.rightTables b hb).mem_of_mem hub hu htb

/-- A predicate that reaches into a right branch is applied above the outer join. -/
theorem exists_performs_of_fuses (h : Reached graph.relations predicates as pending)
    (hpreds : graph.PredicatesOf predicates) (hset : ∀ b ∈ as, ∀ n ∈ b.nodes, n.Settled graph)
    (hperm : pending.Perm (p :: others)) (free : p.Unblocked graph.names others)
    (fuses : p.Fuses (as.filter (·.touches p)) a) (hj : j ∈ graph.outerJoins) (hne : ¬ p.Performs j)
    (hreach : p.ReachesInto j) : ∃ m ∈ a.descendants, m.performs j.id = true := by
  have hpred : p ∈ predicates := h.mem_predicates (hperm.mem_iff.2 (.head _))
  have hnone : ∀ r ∈ pending, ¬ r.Performs j := by
    intro r hr
    rcases List.mem_cons.1 (hperm.mem_iff.1 hr) with rfl | hr
    · exact hne
    · exact hpreds.not_performs_of_reachesInto hpred free hj hne hreach r hr
  obtain ⟨b, hb, n, hn, r, hr, hperf⟩ := h.exists_node hpreds hj hnone
  obtain ⟨left, right, rfl, hright, -, -⟩ := (hset b hb n hn).sides r hr j hj hperf
  obtain ⟨-, t, htp, htj⟩ := hreach
  have htn : t ∈ (join r .leftOuter left right).tables :=
    mem_tables_of_mem_nodes (mem_nodes_of_mem_descendants (List.mem_append_right _ right.mem_nodes_self))
      ((hright t).2 htj)
  have htouch : b ∈ as.filter (·.touches p) :=
    List.mem_filter.2 ⟨hb, touches_iff.2 ⟨t, mem_tables_of_mem_nodes hn htn, htp⟩⟩
  refine ⟨_, fuses.composed.of_part b htouch _ hn, ?_⟩
  rw [performs, hr]
  exact decide_eq_true hperf.outerJoin

theorem settled_of_fuses (h : Reached graph.relations predicates as pending)
    (hpreds : graph.PredicatesOf predicates) (hset : ∀ b ∈ as, ∀ n ∈ b.nodes, n.Settled graph)
    (hp : (p, others) ∈ splits pending) (ready : p.isReady (as.map fragment) others = true)
    (fuses : p.Fuses (as.filter (·.touches p)) a) : a.Settled graph := by
  have hperm := perm_of_mem_splits hp
  have hmem : p ∈ pending := hperm.mem_iff.2 (.head _)
  have free := (h.sound.isReady_iff hperm).1 ready
  refine ⟨?_, ?_, ?_, ?_⟩
  · intro q left right hn
    obtain rfl : q = p := fuses.eq_of_predicate? (hn ▸ rfl)
    rcases hpreds.ordinary_or q (h.mem_predicates hmem) with ho | hperf
    · have := (fuses.kind_eq ho.rightTables hn).trans ho.joinKind
      cases this
    · exact hperf
  · intro q hq j hj hin
    obtain rfl := fuses.eq_of_predicate? hq
    exact h.mem_right_of_fuses hpreds hmem fuses hj hin
  · intro q hq j hj hne hreach
    obtain rfl := fuses.eq_of_predicate? hq
    exact h.exists_performs_of_fuses hpreds hset hperm free fuses hj hne hreach
  · intro q hq j hj hperf
    obtain rfl := fuses.eq_of_predicate? hq
    exact h.sides_of_fuses hpreds hmem free.present fuses hj hperf

theorem settled (h : Reached graph.relations predicates as pending) (hpreds : graph.PredicatesOf predicates) :
    ∀ b ∈ as, ∀ n ∈ b.nodes, n.Settled graph :=
  forall_nodes (fun _ => settled_of_none)
    (fun h hset hp ready fuses => h.settled_of_fuses hpreds hset hp ready fuses) h

end Assembly.Reached

namespace Assembly

/-- The place of an outer join in an assembly: its node is `join p .leftOuter left right`. Nodes of an
assembly with distinct relations are equal only if they are the same one. -/
structure Places (a : Assembly) (j : OuterJoin) (p : Predicate) (left right : Assembly) : Prop where
  only : a.nodes.filter (·.performs j.id) = [join p .leftOuter left right]
  rightTables : ∀ t, t ∈ right.tables ↔ t ∈ j.right
  leftApart : ∀ t ∈ j.right, t ∉ left.tables
  leftTables : ∃ t ∈ j.left, t ∈ left.tables
  inside : ∀ n ∈ a.nodes, ∀ q, n.predicate? = some q → q.outerJoin ≠ some j.id →
    (n ∈ right.nodes ↔ j.id ∈ q.inside)
  above : ∀ n ∈ a.nodes, ∀ q, n.predicate? = some q → q.outerJoin ≠ some j.id → j.id ∉ q.inside →
    (∃ t ∈ q.tables, t ∈ j.right) → join p .leftOuter left right ∈ n.descendants

theorem performs_iff {id : Nat} {a : Assembly} :
    a.performs id = true ↔ ∃ p, a.predicate? = some p ∧ p.outerJoin = some id := by
  rw [performs, Option.any_eq_true]
  simp only [decide_eq_true_eq]

theorem length_filter_performs (a : Assembly) (id : Nat) :
    (a.nodes.filter (·.performs id)).length = (a.predicates.filter fun p => p.outerJoin = some id).length := by
  rw [predicates_eq]
  induction a.nodes with
  | nil => rfl
  | cons n rest ih =>
    cases hn : n.predicate? with
    | none =>
      have : ¬ n.performs id = true := by rw [performs, hn]; exact Bool.false_ne_true
      rw [List.filter_cons, if_neg this, List.filterMap_cons_none hn, ih]
    | some p =>
      have hperf : n.performs id = decide (p.outerJoin = some id) := by rw [performs, hn]; rfl
      rw [List.filter_cons, List.filterMap_cons_some hn, List.filter_cons, hperf]
      by_cases hid : p.outerJoin = some id
      · rw [if_pos (decide_eq_true hid), if_pos (decide_eq_true hid), List.length_cons, List.length_cons, ih]
      · rw [if_neg (by simpa using hid), if_neg (by simpa using hid), ih]

variable {graph : JoinGraph} {predicates : List Predicate} {a : Assembly} {j : OuterJoin}

/-- In an assembly of settled nodes every outer join has its place. -/
theorem exists_places (hpreds : graph.PredicatesOf predicates) (hset : ∀ n ∈ a.nodes, n.Settled graph)
    (happ : ∀ n ∈ a.nodes, n.Applied) (hnames : (a.relations.map (·.name)).Nodup)
    (happlied : a.predicates.Perm predicates) (hj : j ∈ graph.outerJoins) :
    ∃ p left right, p.Performs j ∧ a.Places j p left right := by
  have applied {n : Assembly} {q : Predicate} (hn : n ∈ a.nodes) (hq : n.predicate? = some q) :
      q ∈ predicates := happlied.mem_iff.1 (mem_predicates.2 ⟨n, hn, hq⟩)
  obtain ⟨N, honly⟩ : ∃ N, a.nodes.filter (·.performs j.id) = [N] := by
    obtain ⟨p, hp⟩ := hpreds.performs j hj
    have hlen := (happlied.filter fun p => p.outerJoin = some j.id).length_eq
    rw [hp, ← length_filter_performs] at hlen
    exact List.length_eq_one_iff.1 hlen
  obtain ⟨hN, hperf⟩ := List.mem_filter.1 (honly ▸ List.mem_singleton_self N)
  have unique {m : Assembly} (hm : m ∈ a.nodes) (hperf : m.performs j.id = true) : m = N :=
    List.mem_singleton.1 (honly ▸ List.mem_filter.2 ⟨hm, hperf⟩)
  obtain ⟨p, hp, hid⟩ := performs_iff.1 hperf
  have hpj : p.Performs j := (hpreds.performs_iff (applied hN hp) hj).2 hid
  obtain ⟨left, right, rfl, hright, hapart, u, hul, huj⟩ := (hset N hN).sides p hp j hj hpj
  have other {q : Predicate} (hq : q.outerJoin ≠ some j.id) : ¬ q.Performs j := fun h => hq h.outerJoin
  refine ⟨p, left, right, hpj, honly, hright, ?_, ⟨u, huj, hul⟩, ?_, ?_⟩
  · intro t ht htl
    exact hapart t htl ht
  · intro n hn q hq hne
    constructor
    · -- what reaches into the right branch has the join below it, so it is not in the right input
      intro hnr
      by_contra hout
      obtain ⟨t, ht⟩ := hpreds.anchored q (applied hn hq)
      have htj : t ∈ j.right := (hright t).1 (mem_tables_of_mem_nodes hnr ((happ n hn).reads q hq t ht))
      obtain ⟨m, hm, hmperf⟩ := (hset n hn).waits q hq j hj (other hne) ⟨hout, t, ht, htj⟩
      obtain rfl := unique (nodes_trans (mem_nodes_of_mem_descendants hm) hn) hmperf
      exact not_mem_nodes_of_mem_descendants hm (mem_nodes_of_mem_descendants (List.mem_append_right _ hnr))
    · intro hin
      have hsub := (hset n hn).inside q hq j hj hin
      obtain ⟨t, ht⟩ := n.exists_mem_tables
      refine mem_nodes_right hnames hN hn ht ((hright t).2 (hsub t ht)) fun v hv hvn => ?_
      exact hapart v hv (hsub v hvn)
  · intro n hn q hq hne hout hreach
    obtain ⟨m, hm, hmperf⟩ := (hset n hn).waits q hq j hj (other hne) ⟨hout, hreach⟩
    obtain rfl := unique (nodes_trans (mem_nodes_of_mem_descendants hm) hn) hmperf
    exact hm

end Assembly

namespace Problem

variable {σ : Type} [RandomSource σ] {problem : Problem} {query : Query} {graph : JoinGraph}

/-- What is built of a query with relations is an assembly of all its predicates, with the constants and
the order on top. -/
theorem build_eq_assembly {joins : Expr} (hjoins : query.graph = some joins)
    (hg : JoinGraph.ofTree? query.graph = .ok graph) (hposes : problem.Poses query graph) {order : List Nat}
    (horder : order.Perm (List.range problem.predicates.length)) {s : σ} {tree : Expr}
    (h : problem.build order s = .ok tree) :
    ∃ (predicates : List Predicate) (as : List Assembly) (a : Assembly), predicates.Perm problem.predicates ∧
      Reached graph.relations predicates as [] ∧ Paired as a ∧
      tree = problem.withOrder (problem.withStatics a.tree) := by
  obtain ⟨predicates, as, core, hperm, hreach, hcloses, htree⟩ := build_eq_ok_of_perm_range horder h
  rw [hposes.relations] at hreach
  cases hcloses with
  | none =>
    obtain ⟨hnames, ⟨hnone, -⟩ | ⟨tree, -, hflat⟩⟩ := JoinGraph.ofTree?_eq_ok hg
    · cases hjoins.symm.trans hnone
    · have shape := hflat.shape (fun id hid => absurd hid SortedSet.not_mem_empty) hnames
      obtain ⟨t, ht⟩ := shape.exists_name
      obtain ⟨r, hr, -⟩ := List.mem_map.1 ht
      cases hreach.sound.relations.symm.mem_iff.1 hr
  | @paired _ a hpaired => exact ⟨predicates, as, a, hperm, hreach, hpaired, htree⟩

/-- Every plan that is built of a query, in whatever order and with whatever draws, is an assembly of the
predicates in which each outer join has its place, and no other node is an outer join. -/
theorem build_places_outerJoins {joins : Expr} (hjoins : query.graph = some joins)
    (hg : JoinGraph.ofTree? query.graph = .ok graph) (hscoped : query.isScoped = true)
    (hposes : problem.Poses query graph) {order : List Nat}
    (horder : order.Perm (List.range problem.predicates.length)) {s : σ} {tree : Expr}
    (h : problem.build order s = .ok tree) :
    ∃ a : Assembly, tree = problem.withOrder (problem.withStatics a.tree) ∧
      a.predicates.Perm problem.predicates ∧
      (∀ j ∈ graph.outerJoins, ∃ p left right, p.Performs j ∧ a.Places j p left right) ∧
      ∀ p left right, Assembly.join p .leftOuter left right ∈ a.nodes →
        ∃ j ∈ graph.outerJoins, p.Performs j := by
  obtain ⟨predicates, as, a, hperm, hreach, hpaired, htree⟩ := build_eq_assembly hjoins hg hposes horder h
  have hpreds := hposes.predicatesOf hg hscoped hperm
  obtain ⟨hrel, happlied, happ⟩ := hpaired.of_reached hreach
  have hset : ∀ n ∈ a.nodes, n.Settled graph :=
    hpaired.composed.forall_nodes (fun _ => settled_of_none) (hreach.settled hpreds)
  have hnames : (a.relations.map (·.name)).Nodup := (hrel.map _).nodup_iff.2 hpreds.nested.names
  refine ⟨a, htree, happlied.trans hperm, fun j hj => ?_, fun p left right hn => ?_⟩
  · exact exists_places hpreds hset happ hnames happlied hj
  · exact (hset _ hn).outer p left right rfl

/-- `((a LEFT JOIN (b LEFT JOIN c ON b.y = c.y) ON a.x = b.x) JOIN d ON a.w = d.w) WHERE c.z = a.z`. -/
def nestedJoins : Query where
  graph :=
    let relation (n : String) : Expr := .relation ⟨none, n⟩ ⟨none, n⟩
    let equals (l r c : String) : Option Expr :=
      some (.equals (.column ⟨⟨none, l⟩, c⟩) (.column ⟨⟨none, r⟩, c⟩))
    let branch := .join .leftOuter (relation "b") (relation "c") (equals "b" "c" "y") {}
    let outer := .join .leftOuter (relation "a") branch (equals "a" "b" "x") {}
    some (.join .inner outer (relation "d") (equals "a" "d" "w") {})
  filter := some (.equals (.column ⟨⟨none, "c"⟩, "z"⟩) (.column ⟨⟨none, "a"⟩, "z"⟩))

theorem nestedJoins_order :
    [3, 0, 2, 1].Perm (List.range (nestedJoins.problem nestedJoins.joinGraph).predicates.length) := by
  decide

theorem exists_build_nestedJoins : ∃ tree,
    (nestedJoins.problem nestedJoins.joinGraph).build [3, 0, 2, 1] (Generator.ofSeed 5) = .ok tree := by
  have built : ((nestedJoins.problem nestedJoins.joinGraph).build [3, 0, 2, 1]
      (Generator.ofSeed 5)).isOk = true := by decide +kernel
  exact ok_of_isOk built

theorem build_places_outerJoins_nested : nestedJoins.joinGraph.outerJoins.length = 2 ∧
    ∃ (tree : Expr) (a : Assembly),
      (nestedJoins.problem nestedJoins.joinGraph).build [3, 0, 2, 1] (Generator.ofSeed 5) = .ok tree ∧
      tree = a.tree ∧ ∀ j ∈ nestedJoins.joinGraph.outerJoins, ∃ p left right, a.Places j p left right := by
  obtain ⟨tree, h⟩ := exists_build_nestedJoins
  obtain ⟨a, htree, -, hplaces, -⟩ := build_places_outerJoins rfl (Query.ofTree?_joinGraph (by decide))
    (by decide) (Query.poses_problem _ _) nestedJoins_order h
  refine ⟨by decide, tree, a, h, ?_, fun j hj => ?_⟩
  · rw [htree]
    rfl
  · obtain ⟨p, left, right, -, hplace⟩ := hplaces j hj
    exact ⟨p, left, right, hplace⟩

end Problem

end JoinPlanner
