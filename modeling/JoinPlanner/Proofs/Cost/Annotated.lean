import JoinPlanner.Proofs.Cost.Exact
import JoinPlanner.Proofs.Cost.Ceiling

/-!
# The costs that a plan carries

Pricing without a threshold leaves every operator of a plan with rational rows and time, none negative, that fit
those of its inputs (`Plan.InBounds`): no operator takes less time than its inputs together, no filter has more
rows than its input, a Cartesian join has all pairs of rows, and a left outer join no fewer rows than its left
input. One call of the model keeps this of the operators that have a cost (`CostContext.priced_price`), whether or
not it comes to an error, and so does any number of them (`Plan.Costed.settled`).
-/

namespace JoinPlanner

open CostNumber (ofCount infinity lt)

/-- The rows and the time are rational numbers that are not negative. -/
structure Cost.Rational (c : Cost Exact) : Prop extends Cost.Nonneg c where
  rows_ne_top : c.rows ≠ ⊤
  time_ne_top : c.time ≠ ⊤

/-- A configuration of rational numbers, none negative, with a positive divisor. -/
structure CostConfig.Rational (config : CostConfig Exact) : Prop extends CostConfig.Admissible config where
  lookup_ne_top : config.indexLookupCost ≠ ⊤
  scan_ne_top : config.scanFactor ≠ ⊤
  penalty_ne_top : config.noRelationPenalty ≠ ⊤
  inequality_ne_top : config.inequalityJoinFraction ≠ ⊤
  spread_ne_top : config.equiJoinSpreadDivisor ≠ ⊤

theorem CostConfig.standard_rational : (CostConfig.standard Exact).Rational where
  toAdmissible := standard_admissible
  lookup_ne_top := Exact.ofCount_ne_top 2
  scan_ne_top := Exact.ofCount_ne_top 1
  penalty_ne_top := Exact.div_ne_top (Exact.ofCount_ne_top 11) (by decide +kernel)
  inequality_ne_top := Exact.div_ne_top (Exact.ofCount_ne_top 85) (by decide +kernel)
  spread_ne_top := Exact.ofCount_ne_top 3

/-- The cost of a filter against that of its input. -/
structure FilterBounds (input c : Cost Exact) : Prop where
  rows_le : c.rows ≤ input.rows
  time_le : input.time ≤ c.time

/-- The cost of a join against those of its inputs. -/
structure JoinBounds (kind : JoinKind) (l r c : Cost Exact) : Prop where
  time_le : l.time + r.time ≤ c.time
  cartesian : kind = .cartesian → c.rows = l.rows * r.rows
  leftOuter : kind = .leftOuter → l.rows ≤ c.rows

namespace Plan

/-- The operators of a plan, its root first. -/
def operators {κ : Type} : Plan κ → List (Plan κ)
  | leaf e cost => [leaf e cost]
  | filter kind child cost => filter kind child cost :: child.operators
  | join kind left right on hints cost => join kind left right on hints cost :: (left.operators ++ right.operators)

/-- The inputs of the root have costs, and `c`, as the cost of the root, keeps the bounds that these set. -/
def Fits (c : Cost Exact) : Plan Exact → Prop
  | leaf _ _ => True
  | filter _ child _ => ∃ input, child.cost? = some input ∧ FilterBounds input c
  | join kind left right _ _ _ => ∃ l r, left.cost? = some l ∧ right.cost? = some r ∧ JoinBounds kind l r c

/-- The root has a rational cost that fits those of its inputs. -/
def InBounds (p : Plan Exact) : Prop := ∃ c, p.cost? = some c ∧ c.Rational ∧ p.Fits c

/-- Every operator that has a cost is in bounds. -/
def Settled (p : Plan Exact) : Prop := ∀ n ∈ p.operators, n.cost?.isSome = true → n.InBounds

variable {p : Plan Exact} {c : Cost Exact}

theorem mem_operators (p : Plan Exact) : p ∈ p.operators := by
  cases p <;> exact List.mem_cons_self

theorem InBounds.rational (h : p.InBounds) (hc : p.cost? = some c) : c.Rational := by
  obtain ⟨c', hcost, hrational, -⟩ := h
  obtain rfl := Option.some.inj (hcost.symm.trans hc)
  exact hrational

theorem Settled.rational (h : p.Settled) (hc : p.cost? = some c) : c.Rational :=
  (h p p.mem_operators (by rw [hc]; rfl)).rational hc

theorem settled_leaf {e : Expr} : (leaf e none).Settled := by
  intro n hn hcost
  rw [List.mem_singleton.1 hn] at hcost
  cases hcost

theorem settled_filter {kind : FilterKind Expr} {child : Plan Exact} (h : child.Settled) :
    (filter kind child none).Settled := by
  intro n hn hcost
  rcases List.mem_cons.1 hn with rfl | hn
  · cases hcost
  · exact h n hn hcost

theorem settled_join {kind : JoinKind} {left right : Plan Exact} {on : Option Expr} {hints : JoinHints}
    (hleft : left.Settled) (hright : right.Settled) : (join kind left right on hints none).Settled := by
  intro n hn hcost
  rcases List.mem_cons.1 hn with rfl | hn
  · cases hcost
  · rcases List.mem_append.1 hn with hn | hn
    · exact hleft n hn hcost
    · exact hright n hn hcost

theorem Settled.withCost (h : p.Settled) (hroot : (p.withCost (some c)).InBounds) :
    (p.withCost (some c)).Settled := by
  intro n hn hcost
  cases p with
  | leaf e cost =>
    rw [List.mem_singleton.1 hn]
    exact hroot
  | filter kind child cost | join kind left right on hints cost =>
    rcases List.mem_cons.1 hn with rfl | hn
    · exact hroot
    · exact h n (List.mem_cons_of_mem _ hn) hcost

/-- If the root of a settled plan has a cost, then all its operators have. -/
theorem Settled.inBounds (h : p.Settled) (hc : p.cost?.isSome = true) : ∀ n ∈ p.operators, n.InBounds := by
  induction p with
  | leaf e cost =>
    intro n hn
    obtain rfl := List.mem_singleton.1 hn
    exact h _ hn hc
  | filter kind child cost ih =>
    obtain ⟨hroot, hchild⟩ := List.forall_mem_cons.1 h
    obtain ⟨-, -, -, input, hinput, -⟩ := hroot hc
    exact List.forall_mem_cons.2 ⟨hroot hc, ih hchild (by rw [hinput]; rfl)⟩
  | join kind left right on hints cost ihl ihr =>
    obtain ⟨hroot, hinputs⟩ := List.forall_mem_cons.1 h
    obtain ⟨hleft, hright⟩ := List.forall_mem_append.1 hinputs
    obtain ⟨-, -, -, l, r, hl, hr, -⟩ := hroot hc
    exact List.forall_mem_cons.2 ⟨hroot hc,
      List.forall_mem_append.2 ⟨ihl hleft (by rw [hl]; rfl), ihr hright (by rw [hr]; rfl)⟩⟩

end Plan

namespace CostContext

variable {ctx : CostContext Exact} {s : Session Exact} {c l r input : Cost Exact}

theorem FilterRule.rows_le {kind : FilterKind Expr} {child : Plan Exact} (h : ctx.FilterRule s child input kind c)
    (hinput : 0 ≤ input.rows) : c.rows ≤ input.rows := by
  cases h with
  | probed _ =>
    rw [Exact.min_eq]
    exact min_le_right _ _
  | scanned _ hpoints => exact Exact.mul_share_le hinput (selectivity_le hpoints) (by decide)
  | ordered _ | sorted _ | guard _ | computed | aggregate _ => exact le_rfl

theorem JoinRule.bounds {kind : JoinKind} {cost : Cost Exact} (h : JoinRule cost l r kind c)
    (hcost : l.time + r.time ≤ cost.time) : JoinBounds kind l r c := by
  refine ⟨h.time_le hcost, ?_, ?_⟩
  · rintro rfl
    cases h
    rfl
  · rintro rfl
    cases h with
    | outer h => exact not_lt.1 (Exact.lt_eq_false_iff.1 h)
    | raised _ => exact le_rfl

section Rational

variable (hconfig : ctx.config.Rational)
include hconfig

theorem twoLookups_ne_top : ctx.twoLookups ≠ ⊤ :=
  WithTop.mul_ne_top (Exact.ofCount_ne_top 2) hconfig.lookup_ne_top

theorem FilterRule.rational {kind : FilterKind Expr} {child : Plan Exact} (h : ctx.FilterRule s child input kind c)
    (hinput : input.Rational) : c.Rational := by
  have htime : input.time ≤ c.time := h.time_le hconfig.toAdmissible hinput.rows
  refine ⟨⟨h.rows_nonneg hinput.rows, hinput.time.trans htime⟩, ?_, ?_⟩
  · exact ne_top_of_le_ne_top hinput.rows_ne_top (h.rows_le hinput.rows)
  · cases h with
    | probed _ | ordered _ => exact WithTop.add_ne_top.2 ⟨hinput.time_ne_top, twoLookups_ne_top hconfig⟩
    | scanned _ _ =>
      exact WithTop.add_ne_top.2 ⟨hinput.time_ne_top, WithTop.mul_ne_top hinput.rows_ne_top hconfig.scan_ne_top⟩
    | sorted _ =>
      exact WithTop.add_ne_top.2 ⟨hinput.time_ne_top, WithTop.mul_ne_top hinput.rows_ne_top hconfig.lookup_ne_top⟩
    | guard _ | computed | aggregate _ => exact hinput.time_ne_top

theorem relationRows_ne_top {probability : Option Exact} (hp : ∀ p, probability = some p → p ≠ ⊤) (op : Comparison)
    {left right : Exact} (hleft : left ≠ ⊤) (hright : right ≠ ⊤) :
    ctx.relationRows op probability left right ≠ ⊤ := by
  unfold relationRows
  split
  case h_1 p => exact WithTop.mul_ne_top (WithTop.mul_ne_top (hp p rfl) hleft) hright
  case h_2 =>
    split
    · rw [Exact.min_eq]
      exact WithTop.add_ne_top.2 ⟨ne_top_of_le_ne_top hleft (min_le_left _ _),
        Exact.div_ne_top (Exact.abs_ne_top (Exact.sub_ne_top hright hleft)) hconfig.spread.ne'⟩
    · exact WithTop.mul_ne_top (WithTop.mul_ne_top hconfig.inequality_ne_top hleft) hright

/-- What the condition of a join alone comes to. -/
theorem conditionCost_rational {probability : Option Exact} (hp : ∀ p, probability = some p → 0 ≤ p ∧ p ≤ 1)
    (hl : l.Rational) (hr : r.Rational) (relation : Option SimpleRelation) (hints : JoinHints) :
    (ctx.conditionCost relation hints probability l r).Rational := by
  have hadmissible := hconfig.toAdmissible
  have hinputs : l.time + r.time ≠ ⊤ := WithTop.add_ne_top.2 ⟨hl.time_ne_top, hr.time_ne_top⟩
  refine ⟨⟨?_, ?_⟩, ?_, ?_⟩
  · exact conditionCost_rows_nonneg hadmissible hl.rows hr.rows (fun p h => (hp p h).1) relation hints
  · exact (add_nonneg hl.time hr.time).trans (conditionCost_time_le hadmissible hl.rows hr.rows relation hints)
  · cases relation with
    | some relation =>
      refine relationRows_ne_top hconfig (fun p h => ?_) relation.op hl.rows_ne_top hr.rows_ne_top
      exact ne_top_of_le_ne_top WithTop.one_ne_top (hp p h).2
    | none => exact WithTop.mul_ne_top hl.rows_ne_top hr.rows_ne_top
  · cases relation with
    | some relation =>
      have hvisit : ctx.config.scanFactor + ctx.twoLookups ≠ ⊤ :=
        WithTop.add_ne_top.2 ⟨hconfig.scan_ne_top, twoLookups_ne_top hconfig⟩
      have hscan : l.time + r.time + l.rows * (ctx.config.scanFactor + ctx.twoLookups) ≠ ⊤ :=
        WithTop.add_ne_top.2 ⟨hinputs, WithTop.mul_ne_top hl.rows_ne_top hvisit⟩
      unfold conditionCost
      dsimp only
      split
      · exact hscan
      · exact WithTop.add_ne_top.2 ⟨hscan, WithTop.mul_ne_top hr.rows_ne_top hconfig.lookup_ne_top⟩
    | none =>
      have hpairs : l.rows * r.rows * ctx.config.scanFactor ≠ ⊤ :=
        WithTop.mul_ne_top (WithTop.mul_ne_top hl.rows_ne_top hr.rows_ne_top) hconfig.scan_ne_top
      exact WithTop.add_ne_top.2 ⟨hinputs, WithTop.mul_ne_top hpairs hconfig.penalty_ne_top⟩

omit hconfig in
theorem JoinRule.rational {kind : JoinKind} {cost : Cost Exact} (h : JoinRule cost l r kind c) (hcost : cost.Rational)
    (hl : l.Rational) (hr : r.Rational) : c.Rational := by
  cases h with
  | cartesian => exact ⟨⟨Exact.zero_le_mul hl.rows hr.rows, add_nonneg hl.time hr.time⟩,
      WithTop.mul_ne_top hl.rows_ne_top hr.rows_ne_top, WithTop.add_ne_top.2 ⟨hl.time_ne_top, hr.time_ne_top⟩⟩
  | inner | outer _ => exact hcost
  | raised _ => exact ⟨⟨hl.rows, hcost.time⟩, hl.rows_ne_top, hcost.time_ne_top⟩

theorem filterCost_rational {kind : FilterKind Expr} {child : Plan Exact}
    (h : (ctx.filterCost kind child input).result s = .ok c) (hinput : input.Rational) :
    c.Rational ∧ FilterBounds input c :=
  have hrule := filterRule_of_filterCost h
  ⟨hrule.rational hconfig hinput, hrule.rows_le hinput.rows, hrule.time_le hconfig.toAdmissible hinput.rows⟩

theorem joinCost_rational (hfacts : s.statistics.Probable) {kind : JoinKind} {left right : Plan Exact}
    {on : Option Expr} {hints : JoinHints} (h : (ctx.joinCost kind left right on hints l r).result s = .ok c)
    (hl : l.Rational) (hr : r.Rational) : c.Rational ∧ JoinBounds kind l r c := by
  have hrule := joinRule_of_joinCost h
  have hp (p : Exact) (h : hints.fact.bind s.statistics.fact? = some p) : 0 ≤ p ∧ p ≤ 1 := by
    obtain ⟨key, -, hkey⟩ := Option.bind_eq_some_iff.1 h
    exact hfacts key p hkey
  exact ⟨hrule.rational (conditionCost_rational hconfig hp hl hr _ hints) hl hr,
    hrule.bounds (conditionCost_time_le hconfig.toAdmissible hl.rows hr.rows _ hints)⟩

end Rational

/-! ### Pricing -/

/-- A plan that pricing has gone through: its operators are in bounds, and its root has the cost that was found. -/
structure Priced (x : Plan Exact × Except PlanError (Cost Exact)) : Prop where
  settled : x.1.Settled
  cost {c : Cost Exact} : x.2 = .ok c → x.1.cost? = some c

theorem Priced.rational {p : Plan Exact} (h : Priced (p, .ok c)) : c.Rational := h.settled.rational (h.cost rfl)

theorem priced_annotate {p : Plan Exact} {result : Except PlanError (Cost Exact)} (hp : p.Settled)
    (hroot : ∀ c, result = .ok c → (p.withCost (some c)).InBounds) : Priced (annotate p result) := by
  cases result with
  | error e => exact ⟨hp, nofun⟩
  | ok c =>
    refine ⟨hp.withCost (hroot c rfl), fun h => ?_⟩
    cases h
    cases p <;> rfl

/-- No action of the model makes a fact anything but a probability. -/
theorem Repeatable.probable {α : Type} {x : StateM (Session Exact) α} (h : ctx.Repeatable x)
    (hfacts : s.statistics.Probable) : (x.run s).2.statistics.Probable :=
  fun key p hkey => hfacts key p (((h.agree s).fact? key).trans hkey)

section Pricing

variable (hconfig : ctx.config.Rational)
include hconfig

theorem priced_priceFilter {kind : FilterKind Expr} {child : Plan Exact × Except PlanError (Cost Exact)}
    (h : Priced child) (s : Session Exact) : Priced ((ctx.priceFilter infinity kind child).run s).1 := by
  obtain ⟨child, e | input⟩ := child
  · exact ⟨Plan.settled_filter h.settled, nofun⟩
  · rw [priceFilter, Exact.infinity_lt]
    refine priced_annotate (Plan.settled_filter h.settled) fun c hc => ?_
    obtain ⟨hrational, hbounds⟩ := filterCost_rational hconfig hc h.rational
    exact ⟨c, rfl, hrational, input, h.cost rfl, hbounds⟩

theorem priced_priceJoin {kind : JoinKind} {left : Plan Exact} {on : Option Expr} {hints : JoinHints}
    {right : Plan Exact × Except PlanError (Cost Exact)} (hl : Priced (left, .ok l)) (hr : Priced right)
    (hfacts : s.statistics.Probable) : Priced ((ctx.priceJoin infinity kind left l on hints right).run s).1 := by
  obtain ⟨right, e | r⟩ := right
  · exact ⟨Plan.settled_join hl.settled hr.settled, nofun⟩
  · rw [priceJoin, Exact.infinity_lt]
    refine priced_annotate (Plan.settled_join hl.settled hr.settled) fun c hc => ?_
    obtain ⟨hrational, hbounds⟩ := joinCost_rational hconfig hfacts hc hl.rational hr.rational
    exact ⟨c, rfl, hrational, l, r, hl.cost rfl, hr.cost rfl, hbounds⟩

/-- Pricing keeps all costs in bounds, those that it finds before an error included. -/
theorem priced_price {p : Plan Exact} (hp : p.Settled) (hfacts : s.statistics.Probable) :
    Priced ((ctx.price infinity p).run s).1 := by
  induction p generalizing s with
  | leaf e cost =>
    cases cost with
    | some cost => exact ⟨hp, fun h => congrArg some (Except.ok.inj h)⟩
    | none =>
      refine priced_annotate hp fun c hc => ?_
      obtain ⟨n, rfl⟩ := eq_of_leafCost hc
      exact ⟨_, rfl, ⟨⟨Exact.zero_le_ofCount n, Exact.zero_le_ofCount 0⟩, Exact.ofCount_ne_top n,
        Exact.ofCount_ne_top 0⟩, trivial⟩
  | filter kind child cost ih =>
    cases cost with
    | some cost => exact ⟨hp, fun h => congrArg some (Except.ok.inj h)⟩
    | none =>
      rw [price_filter]
      exact priced_priceFilter hconfig (ih (List.forall_mem_cons.1 hp).2 hfacts) _
  | join kind left right on hints cost ihl ihr =>
    cases cost with
    | some cost => exact ⟨hp, fun h => congrArg some (Except.ok.inj h)⟩
    | none =>
      obtain ⟨hleft, hright⟩ := List.forall_mem_append.1 (List.forall_mem_cons.1 hp).2
      have hl := ihl hleft hfacts
      have hprice (p : Plan Exact) : ctx.Repeatable (ctx.price infinity p) := .price infinity p
      have hfacts' := (hprice left).probable hfacts
      rw [price_join]
      change Priced ((ctx.priceJoinLeft infinity kind right on hints ((ctx.price infinity left).run s).1).run
        ((ctx.price infinity left).run s).2).1
      generalize ((ctx.price infinity left).run s).1 = left' at hl
      obtain ⟨left', e | l⟩ := left'
      · exact ⟨Plan.settled_join hl.settled hright, nofun⟩
      · rw [priceJoinLeft, Exact.infinity_lt]
        exact priced_priceJoin hconfig hl (ihr hright hfacts')
          ((hprice right).probable hfacts')

end Pricing

end CostContext

/-- The plans whose costs all come from pricing without a threshold, in whatever contexts and sessions. -/
inductive Plan.Costed : Plan Exact → Prop
  | leaf (e : Expr) : Costed (leaf e none)
  | filter (kind : FilterKind Expr) {child : Plan Exact} (h : Costed child) : Costed (filter kind child none)
  | join (kind : JoinKind) {left right : Plan Exact} (on : Option Expr) (hints : JoinHints) (hleft : Costed left)
      (hright : Costed right) : Costed (join kind left right on hints none)
  | priced {ctx : CostContext Exact} {s : Session Exact} {p : Plan Exact} (hconfig : ctx.config.Rational)
      (hfacts : s.statistics.Probable) (h : Costed p) : Costed ((ctx.price infinity p).run s).1.1

namespace Plan

theorem costed_ofExpr (e : Expr) : (ofExpr e).Costed := by
  induction e using ofExpr.induct with
  | case1 kind child ih => exact .filter kind ih
  | case2 kind left right on hints ihl ihr => exact .join kind on hints ihl ihr
  | case3 e hfilter hjoin =>
    rw [ofExpr.eq_3 e hfilter hjoin]
    exact .leaf e

theorem Costed.settled {p : Plan Exact} (h : p.Costed) : p.Settled := by
  induction h with
  | leaf e => exact settled_leaf
  | filter kind _ ih => exact settled_filter ih
  | join kind on hints _ _ ihl ihr => exact settled_join ihl ihr
  | priced hconfig hfacts _ ih => exact (CostContext.priced_price hconfig ih hfacts).settled

end Plan

namespace CostContext

variable {ctx : CostContext Exact} {s : Session Exact} {c : Cost Exact}

/-- A plan that is priced without a threshold is the same plan with a cost at every operator, each in bounds. -/
theorem inBounds_of_price (hconfig : ctx.config.Rational) (hfacts : s.statistics.Probable) {p q : Plan Exact}
    (hp : p.Costed) (h : ((ctx.price infinity p).run s).1 = (q, .ok c)) :
    q.clear = p.clear ∧ q.cost? = some c ∧ ∀ n ∈ q.operators, n.InBounds := by
  have hpriced := priced_price hconfig hp.settled hfacts
  have hclear : ((ctx.price infinity p).run s).1.1.clear = p.clear := clear_price infinity p s
  rw [h] at hpriced hclear
  have hcost : q.cost? = some c := hpriced.cost rfl
  exact ⟨hclear, hcost, hpriced.settled.inBounds (by rw [hcost]; rfl)⟩

/-- Tables of three and two rows. -/
def smallTables : CostContext Exact where
  catalog := ⟨[(⟨none, "t"⟩, { columns := ["x"], rows := #[[.int 1], [.int 2], [.int 3]] }),
    (⟨none, "u"⟩, { columns := ["y"], rows := #[[.int 1], [.int 2]] })]⟩
  baseTables := [(⟨none, "a"⟩, ⟨none, "t"⟩), (⟨none, "b"⟩, ⟨none, "u"⟩), (⟨none, "c"⟩, ⟨none, "t"⟩)]
  config := .standard Exact

/-- A session that knows twenty points of NULL and twelve of 4 in `t.x`, and one fact. -/
def sampledSession : Session Exact where
  statistics :=
    { columns := [(⟨⟨none, "t"⟩, "x"⟩, ⟨64, 32, List.replicate 20 .null ++ List.replicate 12 (.int 4)⟩)]
      facts := [(⟨"t.x=u.y"⟩, some (1 / 100 : ℚ))] }

/-- `(SELECT * FROM t AS a WHERE a.x > 2 AND (a.x = 4 AND a.x < 9)) LEFT JOIN (u AS b, t AS c) ON a.x = b.y`. -/
def outerOverCartesian : Expr :=
  let x : Expr := .column ⟨⟨none, "a"⟩, "x"⟩
  let y : Expr := .column ⟨⟨none, "b"⟩, "y"⟩
  let predicate : Expr := .apply .and [.compare .gt x (.literal (.int 2)),
    .apply .and [.equals x (.literal (.int 4)), .compare .lt x (.literal (.int 9))]]
  .join .leftOuter (.filter (.select predicate none) (.relation ⟨none, "a"⟩ ⟨none, "t"⟩))
    (.join .cartesian (.relation ⟨none, "b"⟩ ⟨none, "u"⟩) (.relation ⟨none, "c"⟩ ⟨none, "t"⟩) none {})
    (some (.equals x y)) { fact := some ⟨"t.x=u.y"⟩ }

/-- The join keeps the 9/8 rows of its left input: by its fact it would have fewer. -/
theorem inBounds_of_price_outerOverCartesian : ∃ q c,
    ((smallTables.price infinity (.ofExpr outerOverCartesian)).run sampledSession).1 = (q, .ok c) ∧
    c.rows = ((9 / 8 : ℚ) : Exact) ∧ ∀ n ∈ q.operators, n.InBounds := by
  have hrows : ((smallTables.price infinity (.ofExpr outerOverCartesian)).run sampledSession).1.2.toOption.map
      (·.rows) = some ((9 / 8 : ℚ) : Exact) := by
    decide +kernel
  have hfacts : sampledSession.statistics.Probable := by
    intro key p h
    rw [Statistics.fact?, sampledSession, List.lookup_cons] at h
    split at h
    · cases h; decide +kernel
    · cases h
  cases h : ((smallTables.price infinity (.ofExpr outerOverCartesian)).run sampledSession).1 with
  | mk q result =>
    rw [h] at hrows
    cases result with
    | error e => cases hrows
    | ok c =>
      have hbounds := inBounds_of_price CostConfig.standard_rational hfacts (Plan.costed_ofExpr outerOverCartesian) h
      exact ⟨q, c, rfl, Option.some.inj hrows, hbounds.2.2⟩

end CostContext

end JoinPlanner
