import JoinPlanner.Proofs.Cost.Bounds

/-!
# Pricing up to a threshold

A tree that can be priced without a threshold can be priced up to any. Up to a threshold a tree gets its true
cost, or an infinite time if that cost takes longer than the threshold (`estimate_eq_or_eq_top`). A node is
never cheaper than an input, so what is given up at a node was too long for every node above it.
-/

namespace JoinPlanner

open CostNumber (infinity lt)

/-- What a tree of cost `c` may get up to a threshold: its cost, or an infinite time if that takes longer. -/
def Cost.UpTo (threshold : Exact) (c d : Cost Exact) : Prop := d = c ∨ d.time = ⊤ ∧ threshold < c.time

namespace Cost.UpTo

variable {threshold : Exact} {c d : Cost Exact}

theorem lt_of_lt (h : UpTo threshold c d) (hd : threshold < d.time) : threshold < c.time := by
  obtain rfl | ⟨-, hlt⟩ := h
  · exact hd
  · exact hlt

theorem eq_of_not_lt (h : UpTo threshold c d) (hd : ¬ threshold < d.time) : d = c := by
  obtain rfl | ⟨htop, hlt⟩ := h
  · rfl
  · exact absurd (htop ▸ hlt.trans_le le_top) hd

theorem eq_of_le (h : UpTo threshold c d) (hc : c.time ≤ threshold) : d = c :=
  h.resolve_right fun ⟨_, hlt⟩ => hlt.not_ge hc

theorem eq_of_ne_top (h : UpTo threshold c d) (hd : d.time ≠ ⊤) : d = c :=
  h.resolve_right fun ⟨htop, _⟩ => hd htop

end Cost.UpTo

namespace CostContext

variable {ctx : CostContext Exact} {s s' : Session Exact} {e : Expr} {c : Cost Exact}

theorem exists_estimate_upTo (hconfig : ctx.config.Admissible) (hfacts : s.statistics.Probable)
    (h : ctx.estimate s infinity e = .ok c) (threshold : Exact) :
    ∃ d, ctx.estimate s threshold e = .ok d ∧ c.UpTo threshold d := by
  induction e using Plan.ofExpr.induct generalizing c with
  | case1 kind child ih =>
    obtain ⟨input, hinput, hc⟩ := estimate_filter_infinity_eq_ok.1 h
    obtain ⟨found, hfound, hupTo⟩ := ih hinput
    by_cases hlt : threshold < found.time
    · have htime := (filterCost_bounds hconfig hc (estimate_nonneg hconfig hfacts hinput).rows).2
      exact ⟨_, estimate_filter_eq_ok.2 ⟨found, hfound, .inl ⟨Exact.lt_iff.2 hlt, rfl⟩⟩,
        .inr ⟨rfl, (hupTo.lt_of_lt hlt).trans_le htime⟩⟩
    · obtain rfl := hupTo.eq_of_not_lt hlt
      exact ⟨c, estimate_filter_eq_ok.2 ⟨found, hfound, .inr ⟨Exact.lt_eq_false_iff.2 hlt, hc⟩⟩, .inl rfl⟩
  | case2 kind left right on hints ihl ihr =>
    obtain ⟨l, hl, r, hr, hc⟩ := estimate_join_infinity_eq_ok.1 h
    have hlnonneg := estimate_nonneg hconfig hfacts hl
    have hrnonneg := estimate_nonneg hconfig hfacts hr
    have htime := (joinCost_bounds hconfig hfacts hc hlnonneg.rows hrnonneg.rows).2
    have hltime : l.time ≤ c.time := (le_add_of_nonneg_right hrnonneg.time).trans htime
    have hrtime : r.time ≤ c.time := (le_add_of_nonneg_left hlnonneg.time).trans htime
    obtain ⟨l', hl', hlupTo⟩ := ihl hl
    obtain ⟨r', hr', hrupTo⟩ := ihr hr
    by_cases hllt : threshold < l'.time
    · exact ⟨_, estimate_join_eq_ok.2 ⟨l', hl', .inl ⟨Exact.lt_iff.2 hllt, rfl⟩⟩,
        .inr ⟨rfl, (hlupTo.lt_of_lt hllt).trans_le hltime⟩⟩
    · obtain rfl := hlupTo.eq_of_not_lt hllt
      by_cases hrlt : threshold < r'.time
      · exact ⟨_, estimate_join_eq_ok.2 ⟨l', hl', .inr ⟨Exact.lt_eq_false_iff.2 hllt, r', hr',
          .inl ⟨Exact.lt_iff.2 hrlt, rfl⟩⟩⟩, .inr ⟨rfl, (hrupTo.lt_of_lt hrlt).trans_le hrtime⟩⟩
      · obtain rfl := hrupTo.eq_of_not_lt hrlt
        exact ⟨c, estimate_join_eq_ok.2 ⟨l', hl', .inr ⟨Exact.lt_eq_false_iff.2 hllt, r', hr',
          .inr ⟨Exact.lt_eq_false_iff.2 hrlt, hc⟩⟩⟩, .inl rfl⟩
  | case3 e hfilter hjoin =>
    rw [estimate_leaf hfilter hjoin] at h ⊢
    exact ⟨c, h, .inl rfl⟩

/-- Pricing up to a threshold is sound: a tree that has a cost without a threshold gets, up to any threshold
and in any session that answers alike, that cost or an infinite time, the latter only if it takes longer than
the threshold. -/
theorem estimate_eq_or_eq_top (hconfig : ctx.config.Admissible) (hfacts : s.statistics.Probable)
    (hagree : ctx.Agree s s') (h : ctx.estimate s infinity e = .ok c) (threshold : Exact) :
    ∃ d, ctx.estimate s' threshold e = .ok d ∧ (d = c ∨ d.time = ⊤ ∧ threshold < c.time) ∧
      (c.time ≤ threshold → d = c) ∧ (d.time ≠ ⊤ → d = c) := by
  obtain ⟨d, hd, hupTo⟩ := exists_estimate_upTo hconfig hfacts h threshold
  exact ⟨d, estimate_congr hagree threshold e ▸ hd, hupTo, hupTo.eq_of_le, hupTo.eq_of_ne_top⟩

/-- Tables of three and two rows. -/
def twoTables : CostContext Exact where
  catalog := ⟨[(⟨none, "t"⟩, { columns := ["x"], rows := #[[.int 1], [.int 2], [.int 3]] }),
    (⟨none, "u"⟩, { columns := ["y"], rows := #[[.int 1], [.int 2]] })]⟩
  baseTables := [(⟨none, "a"⟩, ⟨none, "t"⟩), (⟨none, "b"⟩, ⟨none, "u"⟩)]
  config := .standard Exact

/-- A session that knows one fact. -/
def oneFact : Session Exact :=
  { statistics := { facts := [(⟨"t.x=u.y"⟩, some (1 / 2 : ℚ))] } }

/-- `SELECT * FROM t AS a JOIN u AS b ON a.x = b.y WHERE a.x = 1 ORDER BY b.y`. -/
def sortedJoin : Expr :=
  let x : Expr := .column ⟨⟨none, "a"⟩, "x"⟩
  let y : Expr := .column ⟨⟨none, "b"⟩, "y"⟩
  .filter (.sort [⟨y, true⟩] none)
    (.join .inner
      (.filter (.select (.equals x (.literal (.int 1))) none) (.relation ⟨none, "a"⟩ ⟨none, "t"⟩))
      (.relation ⟨none, "b"⟩ ⟨none, "u"⟩) (some (.equals x y)) { fact := some ⟨"t.x=u.y"⟩ })

/-- The join alone takes 22, and its sort 6: up to 10 the join is priced, and the sort given up. -/
theorem estimate_eq_or_eq_top_sortedJoin : ∃ c d,
    twoTables.estimate oneFact infinity sortedJoin = .ok c ∧ c.time = (28 : ℚ) ∧
    twoTables.estimate ((twoTables.price infinity (.ofExpr sortedJoin)).run oneFact).2 (10 : ℚ)
      sortedJoin = .ok d ∧ d.time = ⊤ := by
  have hcost : (twoTables.estimate oneFact infinity sortedJoin).toOption.map (·.time) =
      some ((28 : ℚ) : Exact) := by
    decide +kernel
  have hgivenUp : (twoTables.estimate ((twoTables.price infinity (.ofExpr sortedJoin)).run oneFact).2 (10 : ℚ)
      sortedJoin).toOption.map (·.time) = some ⊤ := by
    decide +kernel
  have hfacts : oneFact.statistics.Probable := by
    intro key p h
    rw [Statistics.fact?, oneFact, List.lookup_cons] at h
    split at h
    · cases h; decide +kernel
    · cases h
  cases h : twoTables.estimate oneFact infinity sortedJoin with
  | error e => rw [h] at hcost; cases hcost
  | ok c =>
    rw [h] at hcost
    obtain ⟨d, hd, -⟩ := estimate_eq_or_eq_top CostConfig.standard_admissible hfacts
      ((Repeatable.price infinity (.ofExpr sortedJoin)).agree oneFact) h (10 : ℚ)
    rw [hd] at hgivenUp
    exact ⟨c, d, rfl, Option.some.inj hcost, hd, Option.some.inj hgivenUp⟩

end CostContext

end JoinPlanner
