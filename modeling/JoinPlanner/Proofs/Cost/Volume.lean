import JoinPlanner.Proofs.Candidate.Footprint
import JoinPlanner.Proofs.Cost.Ceiling
import Mathlib.Algebra.Order.BigOperators.Group.List

/-!
# Costs by volume

The volume of relations is the number of combinations of their rows, an empty table counted as one row. A tree that
is built has no more rows than the volume of its relations. Each predicate takes a few visits of the volume below
its node (`Predicate.visits`), and nothing else takes any time, so the time of the tree is bounded by the visits of
all predicates together, each of the whole volume that predicates read (`CostContext.estimate_tree_atMost`).
-/

namespace JoinPlanner

open CostNumber (ofCount infinity)

namespace Catalog

/-- The number of rows of a table, none if there is no such table. -/
def rowsOf (catalog : Catalog) (name : TableName) : ℕ := (catalog.rowCount name).toOption.getD 0

/-- The rows of a relation, an empty one counted as one row. -/
def height (catalog : Catalog) (r : Relation) : ℕ := max 1 (catalog.rowsOf r.table)

def volume (catalog : Catalog) (relations : List Relation) : ℕ := (relations.map catalog.height).prod

variable {catalog : Catalog} {relations relations' : List Relation}

@[simp] theorem volume_append :
    catalog.volume (relations ++ relations') = catalog.volume relations * catalog.volume relations' := by
  rw [volume, List.map_append, List.prod_append]
  rfl

theorem one_le_height_of_mem {n : ℕ} (h : n ∈ relations.map catalog.height) : 1 ≤ n := by
  obtain ⟨r, -, rfl⟩ := List.mem_map.1 h
  exact le_max_left _ _

theorem one_le_volume : 1 ≤ catalog.volume relations :=
  List.one_le_prod_of_one_le fun _ => one_le_height_of_mem

theorem volume_le_of_sublist (h : relations.Sublist relations') : catalog.volume relations ≤ catalog.volume relations' :=
  (h.map _).prod_le_prod' fun _ => one_le_height_of_mem

theorem volume_perm (h : relations.Perm relations') : catalog.volume relations = catalog.volume relations' :=
  (h.map _).prod_eq

theorem le_volume {least : ℕ} (hne : relations ≠ []) (h : ∀ r ∈ relations, least ≤ catalog.height r) :
    least ≤ catalog.volume relations := by
  obtain ⟨r, hr⟩ := List.exists_mem_of_ne_nil _ hne
  have hsub : [r].Sublist relations := List.singleton_sublist.2 hr
  have hvolume : catalog.height r ≤ catalog.volume relations := by
    simpa [volume] using volume_le_of_sublist hsub
  exact (h r hr).trans hvolume

end Catalog

namespace Predicate

/-- How often a predicate visits the volume below its node, if every relation there has at least `least` rows: a
filter once or for two lookups, a join to compare every two rows or for the lookups of both sides. -/
def visits (least : ℕ) (p : Predicate) : ℚ :=
  if p.tables.size ≤ 1 then max 1 (4 / least) else max (11 / 10) (7 / least)

variable {least : ℕ} {p : Predicate}

theorem filter_le_visits : max 1 (4 / least : ℚ) ≤ p.visits least := by
  unfold visits
  split
  · exact le_rfl
  · refine max_le_max (by norm_num) ?_
    gcongr
    norm_num

theorem visits_nonneg : 0 ≤ p.visits least := by
  have h : (1 : ℚ) ≤ p.visits least := (le_max_left _ _).trans filter_le_visits
  linarith

theorem nonneg_of_mem_visits {predicates : List Predicate} {v : ℚ} (h : v ∈ predicates.map (·.visits least)) :
    0 ≤ v := by
  obtain ⟨p, -, rfl⟩ := List.mem_map.1 h
  exact p.visits_nonneg

variable (hleast : 0 < least) {P Q bound : ℚ} (hP : least ≤ P)
include hleast hP

theorem filter_le (hbound : P ≤ bound) : max P 4 ≤ p.visits least * bound := by
  have hpos : (0 : ℚ) < least := Nat.cast_pos.2 hleast
  have hP0 : 0 ≤ P := hpos.le.trans hP
  have hlookups : 4 ≤ 4 / least * P := by
    rw [div_mul_eq_mul_div, le_div_iff₀ hpos]
    linarith
  calc max P 4
    _ ≤ max 1 (4 / least : ℚ) * P := by
      rw [max_mul_of_nonneg _ _ hP0, one_mul]
      exact max_le_max le_rfl hlookups
    _ ≤ p.visits least * bound := mul_le_mul filter_le_visits hbound hP0 visits_nonneg

theorem join_le (hQ : least ≤ Q) (hp : 2 ≤ p.tables.size) (hbound : P * Q ≤ bound) :
    max (5 * P + 2 * Q) (11 / 10 * (P * Q)) ≤ p.visits least * bound := by
  have hpos : (0 : ℚ) < least := Nat.cast_pos.2 hleast
  have hPQ : 0 ≤ P * Q := mul_nonneg (hpos.le.trans hP) (hpos.le.trans hQ)
  have hlookups : 5 * P + 2 * Q ≤ 7 / least * (P * Q) := by
    rw [div_mul_eq_mul_div, le_div_iff₀ hpos]
    nlinarith
  have hvisits : p.visits least = max (11 / 10) (7 / least : ℚ) := if_neg (by omega)
  calc max (5 * P + 2 * Q) (11 / 10 * (P * Q))
    _ ≤ max (11 / 10) (7 / least : ℚ) * (P * Q) := by
      rw [max_mul_of_nonneg _ _ hPQ, max_comm]
      exact max_le_max le_rfl hlookups
    _ ≤ p.visits least * bound := by
      rw [hvisits]
      gcongr

end Predicate

/-- A node of relations that all have `least` rows, and of a volume up to a bound; a join reads from both sides. -/
structure Assembly.Within (catalog : Catalog) (least bound : ℕ) (n : Assembly) : Prop where
  least : ∀ r ∈ n.relations, least ≤ catalog.height r
  volume : catalog.volume n.relations ≤ bound
  sides : ∀ p kind left right, n = join p kind left right → 2 ≤ p.tables.size

namespace CostContext

variable {ctx : CostContext Exact} {s : Session Exact} {c : Cost Exact}

theorem eq_of_estimate_relation {threshold : Exact} {name base : TableName}
    (h : ctx.estimate s threshold (.relation name base) = .ok c) :
    c = ⟨ofCount (ctx.catalog.rowsOf base), ofCount 0⟩ := by
  rw [Expr.relation, estimate_leaf (by simp) (by simp)] at h
  change PlanM.result (do
    let rows ← (ctx.catalog.rowCount base).mapError PlanError.catalog
    return ⟨ofCount rows, ofCount 0⟩ : SessionM Exact (Cost Exact)) s = .ok c at h
  rw [Catalog.rowsOf]
  cases hrows : ctx.catalog.rowCount base with
  | error e => rw [hrows] at h; cases h
  | ok n => rw [hrows] at h; cases h; rfl

theorem eq_of_estimate_singleRow (hc : ctx.estimate s infinity .singleRow = .ok c) : c = ⟨ofCount 1, ofCount 0⟩ := by
  obtain ⟨input, hinput, hc⟩ := estimate_filter_infinity_eq_ok.1 hc
  cases hc
  rw [estimate_leaf (by simp) (by simp)] at hinput
  cases hinput
  rfl

/-- Constants on top of a tree cost nothing. -/
theorem estimate_of_withStatics {problem : Problem} {core : Expr}
    (hc : ctx.estimate s infinity (problem.withStatics core) = .ok c) : ctx.estimate s infinity core = .ok c := by
  unfold Problem.withStatics at hc
  split at hc
  · exact hc
  · obtain ⟨input, hinput, hc⟩ := estimate_filter_infinity_eq_ok.1 hc
    cases hc
    exact hinput

theorem atMost_of_rows (n : ℕ) : Cost.AtMost ⟨ofCount n, ofCount 0⟩ n 0 :=
  ⟨⟨n, rfl, n.cast_nonneg, le_rfl⟩, ⟨(0 : ℕ), rfl, Nat.cast_zero.le⟩⟩

open Assembly

/-- What a node of a built tree reads lies within the relations that predicates read. -/
theorem within_of_footed {relations : List Relation} {predicates : List Predicate} {least : ℕ} {a n : Assembly}
    (hrelations : a.relations.Perm relations) (hnames : (relations.map (·.name)).Nodup)
    (hheight : ∀ r ∈ relations, r.IsRead predicates → least ≤ ctx.catalog.height r) (hn : n ∈ a.nodes)
    (hfooted : n.Footed predicates) {p : Predicate} (hp : n.predicate? = some p) :
    n.Within ctx.catalog least (ctx.catalog.volume (relations.filter (·.IsRead predicates))) := by
  have hsub : n.relations.Sublist a.relations := relations_sublist hn
  have hread := hfooted.read p hp
  refine ⟨fun r hr => hheight r (hrelations.subset (hsub.subset hr)) (hread r hr), ?_, ?_⟩
  · have hfilter : n.relations.filter (·.IsRead predicates) = n.relations :=
      List.filter_eq_self.2 fun r hr => decide_eq_true (hread r hr)
    calc ctx.catalog.volume n.relations
      _ = ctx.catalog.volume (n.relations.filter (·.IsRead predicates)) := by rw [hfilter]
      _ ≤ ctx.catalog.volume (a.relations.filter (·.IsRead predicates)) :=
        Catalog.volume_le_of_sublist (hsub.filter _)
      _ = ctx.catalog.volume (relations.filter (·.IsRead predicates)) :=
        Catalog.volume_perm (hrelations.filter _)
  · intro q kind left right hjoin
    obtain ⟨hleft, hright⟩ := hfooted.sides q kind left right hjoin
    subst hjoin
    exact two_le_size hleft hright ((hsub.map _).nodup ((hrelations.map _).nodup_iff.2 hnames))

variable (hconfig : ctx.config = .standard Exact) (hfacts : s.statistics.Probable)
include hconfig hfacts

theorem estimate_tree_atMost {least bound : ℕ} (hleast : 0 < least) {a : Assembly}
    (h : ∀ n ∈ a.nodes, ∀ p, n.predicate? = some p → n.Within ctx.catalog least bound)
    (hc : ctx.estimate s infinity a.tree = .ok c) :
    c.AtMost (ctx.catalog.volume a.relations) ((a.predicates.map (·.visits least)).sum * bound) := by
  induction a generalizing c with
  | relation r =>
    rw [eq_of_estimate_relation hc]
    refine (atMost_of_rows _).mono ?_ (by simp [predicates])
    simp [relations, Catalog.volume, Catalog.height]
  | select p path input ih =>
    obtain ⟨input', hinput, hc⟩ := estimate_filter_infinity_eq_ok.1 hc
    have hwithin := h _ (mem_nodes_self _) p rfl
    have hbelow := ih (fun n hn => h n (.tail _ hn)) hinput
    have hvolume : (least : ℚ) ≤ ctx.catalog.volume input.relations := by
      exact_mod_cast Catalog.le_volume input.relations_ne_nil hwithin.least
    have hbound : (ctx.catalog.volume input.relations : ℚ) ≤ bound := by exact_mod_cast hwithin.volume
    have hfilter := p.filter_le hleast hvolume hbound
    refine ((filterRule_of_filterCost hc).atMost_select hconfig hbelow).mono le_rfl ?_
    rw [predicates, List.map_cons, List.sum_cons, add_mul]
    linarith
  | product left right ihl ihr =>
    obtain ⟨l, hl, r, hr, hc⟩ := estimate_join_infinity_eq_ok.1 hc
    have hleft := ihl (fun n hn => h n (.tail _ (List.mem_append_left _ hn))) hl
    have hright := ihr (fun n hn => h n (.tail _ (List.mem_append_right _ hn))) hr
    refine ((joinRule_of_joinCost hc).atMost_cartesian hleft hright).mono ?_ ?_
    · rw [relations, Catalog.volume_append, Nat.cast_mul]
    · rw [predicates, List.map_append, List.sum_append, add_mul]
  | join p kind left right ihl ihr =>
    obtain ⟨l, hl, r, hr, hc⟩ := estimate_join_infinity_eq_ok.1 hc
    have hwithin := h _ (mem_nodes_self _) p rfl
    have hleft := ihl (fun n hn => h n (.tail _ (List.mem_append_left _ hn))) hl
    have hright := ihr (fun n hn => h n (.tail _ (List.mem_append_right _ hn))) hr
    have hP : (least : ℚ) ≤ ctx.catalog.volume left.relations := by
      exact_mod_cast Catalog.le_volume left.relations_ne_nil fun r hr =>
        hwithin.least r (List.mem_append_left _ hr)
    have hQ : (least : ℚ) ≤ ctx.catalog.volume right.relations := by
      exact_mod_cast Catalog.le_volume right.relations_ne_nil fun r hr =>
        hwithin.least r (List.mem_append_right _ hr)
    have hvolume : (ctx.catalog.volume left.relations * ctx.catalog.volume right.relations : ℚ) ≤ bound := by
      have := hwithin.volume
      rw [relations, Catalog.volume_append] at this
      exact_mod_cast this
    have hjoin := p.join_le hleast hP hQ (hwithin.sides p kind left right rfl) hvolume
    refine (joinCost_atMost hconfig hfacts hc hleft hright ?_ ?_).mono ?_ ?_
    · exact_mod_cast Catalog.one_le_volume
    · exact_mod_cast Catalog.one_le_volume
    · rw [relations, Catalog.volume_append, Nat.cast_mul]
    · rw [predicates, List.map_cons, List.sum_cons, List.map_append, List.sum_append, add_mul, add_mul]
      linarith

/-- A tree that is built takes no longer than the visits of all predicates. -/
theorem time_le_of_build {σ : Type} [RandomSource σ] {problem : Problem} {order : List Nat} {source : σ} {tree : Expr}
    (hbuild : problem.build order source = .ok tree) (horder : problem.order = [])
    (hnames : (problem.relations.map (·.name)).Nodup) {least : ℕ} (hleast : 0 < least)
    (hheight : ∀ r ∈ problem.relations, r.IsRead problem.predicates → least ≤ ctx.catalog.height r)
    (hc : ctx.estimate s infinity tree = .ok c) :
    c.time ≤ (((problem.predicates.map (·.visits least)).sum *
      ctx.catalog.volume (problem.relations.filter (·.IsRead problem.predicates)) : ℚ) : Exact) := by
  obtain ⟨predicates, as, core, hselect, hreach, hcloses, rfl⟩ := Problem.build_eq_ok hbuild
  rw [Problem.withOrder, horder] at hc
  replace hc := estimate_of_withStatics hc
  cases hcloses with
  | none =>
    rw [eq_of_estimate_singleRow hc]
    have hsum : 0 ≤ (problem.predicates.map (·.visits least)).sum :=
      List.sum_nonneg fun _ => Predicate.nonneg_of_mem_visits
    exact WithTop.coe_nonneg.2 (mul_nonneg hsum (Nat.cast_nonneg _))
  | @paired _ a hpaired =>
    obtain ⟨chosen, hchosen, hsub⟩ := Problem.exists_sublist_of_select hselect
    obtain ⟨hrelations, happlied, -⟩ := hpaired.of_reached hreach
    have hsubset : predicates ⊆ problem.predicates := fun p hp => hsub.subset (hchosen.mem_iff.2 hp)
    have hfooted : ∀ n ∈ a.nodes, n.Footed problem.predicates := fun n hn =>
      (hpaired.composed.forall_nodes (fun _ => footed_of_none) hreach.footed n hn).mono hsubset
    have hatMost := estimate_tree_atMost hconfig hfacts hleast (fun n hn p hp =>
      within_of_footed hrelations hnames hheight hn (hfooted n hn) hp) hc
    have hle : (a.predicates.map (·.visits least)).sum ≤ (problem.predicates.map (·.visits least)).sum := by
      rw [((happlied.trans hchosen.symm).map _).sum_eq]
      exact (hsub.map _).sum_le_sum fun _ => Predicate.nonneg_of_mem_visits
    obtain ⟨q, hq, hqle⟩ := hatMost.time
    rw [hq, WithTop.coe_le_coe]
    exact hqle.trans (mul_le_mul_of_nonneg_right hle (Nat.cast_nonneg _))

end CostContext

end JoinPlanner
