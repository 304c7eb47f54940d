import JoinPlanner.Proofs.Cost.Session

/-!
# Estimates

`CostContext.estimate s threshold e` is the cost that pricing finds for the bare tree `e` in the session `s`.
As pricing is repeatable, the estimate of a tree follows from the estimates of its inputs in the same session
(`estimate_filter`, `estimate_join`), and is one in all sessions that agree (`estimate_congr`).
-/

namespace JoinPlanner

variable {κ : Type}

@[simp] theorem Plan.clear_withCost (p : Plan κ) (cost : Option (Cost κ)) : (p.withCost cost).clear = p.clear := by
  cases p <;> rfl

namespace CostContext

@[simp] theorem clear_annotate (p : Plan κ) (r : Except PlanError (Cost κ)) :
    (annotate p r).1.clear = p.clear := by
  cases r
  · rfl
  · exact p.clear_withCost _

theorem eq_of_annotate {p q : Plan κ} {r : Except PlanError (Cost κ)} {c : Cost κ}
    (h : annotate p r = (q, .ok c)) : q = p.withCost (some c) := by
  cases r with
  | error e => cases h
  | ok c => cases h; rfl

@[simp] theorem snd_annotate (p : Plan κ) (r : Except PlanError (Cost κ)) : (annotate p r).2 = r := by
  cases r <;> rfl

variable {ctx : CostContext κ} {s s' : Session κ} {p q left right left' right' : Plan κ}

theorem probedRows_congr (h : p.toExpr = q.toExpr) (path : Option AccessPath) :
    ctx.probedRows path p = ctx.probedRows path q := by
  have hread (p : Plan κ) : ctx.probedRows path p = ctx.probedRows path (.leaf p.toExpr none) := by
    cases path with
    | none => rfl
    | some path =>
      cases p with
      | leaf e cost => cases e <;> rfl
      | filter _ _ _ | join _ _ _ _ _ _ => rfl
  rw [hread p, hread q, h]

variable [CostNumber κ]

open CostNumber (infinity lt)

theorem filterCost_congr (h : p.toExpr = q.toExpr) (kind : FilterKind Expr) (input : Cost κ) :
    ctx.filterCost kind p input = ctx.filterCost kind q input := by
  cases kind with
  | select predicate path => rw [filterCost, filterCost, probedRows_congr h]
  | sort keys path => rw [filterCost, filterCost, h]
  | guard _ | computed | aggregate _ => rfl

theorem joinCost_congr (hleft : left.toExpr = left'.toExpr) (hright : right.toExpr = right'.toExpr)
    (kind : JoinKind) (on : Option Expr) (hints : JoinHints) (l r : Cost κ) :
    ctx.joinCost kind left right on hints l r = ctx.joinCost kind left' right' on hints l r := by
  simp only [joinCost, Plan.relations_eq, hleft, hright]

variable {threshold : κ}

theorem clear_priceFilter (kind : FilterKind Expr) (child : Plan κ × Except PlanError (Cost κ))
    (s : Session κ) : ((ctx.priceFilter threshold kind child).run s).1.1.clear = .filter kind child.1.clear none := by
  obtain ⟨child, e | input⟩ := child
  · rfl
  · rw [priceFilter]
    split <;> exact clear_annotate _ _

theorem clear_priceJoin (kind : JoinKind) (left : Plan κ) (l : Cost κ) (on : Option Expr) (hints : JoinHints)
    (right : Plan κ × Except PlanError (Cost κ)) (s : Session κ) :
    ((ctx.priceJoin threshold kind left l on hints right).run s).1.1.clear =
      .join kind left.clear right.1.clear on hints none := by
  obtain ⟨right, e | r⟩ := right
  · rfl
  · rw [priceJoin]
    split <;> exact clear_annotate _ _

theorem snd_priceFilter {child : Plan κ × Except PlanError (Cost κ)} (h : child.1.toExpr = p.toExpr)
    (kind : FilterKind Expr) (s : Session κ) :
    ((ctx.priceFilter threshold kind child).run s).1.2 = (do
      let input ← child.2
      if lt threshold input.time then return ⟨input.rows, infinity⟩
      else (ctx.filterCost kind p input).result s) := by
  obtain ⟨child, e | input⟩ := child
  · rfl
  · rw [priceFilter]
    change _ = ite _ _ _
    split
    · rfl
    · rw [← filterCost_congr h]
      exact snd_annotate _ _

theorem snd_priceJoin (hleft : left'.toExpr = left.toExpr) {right' : Plan κ × Except PlanError (Cost κ)}
    (hright : right'.1.toExpr = right.toExpr) (kind : JoinKind) (l : Cost κ) (on : Option Expr)
    (hints : JoinHints) (s : Session κ) :
    ((ctx.priceJoin threshold kind left' l on hints right').run s).1.2 = (do
      let r ← right'.2
      if lt threshold r.time then return ⟨l.rows * r.rows, infinity⟩
      else (ctx.joinCost kind left right on hints l r).result s) := by
  obtain ⟨right', e | r⟩ := right'
  · rfl
  · rw [priceJoin]
    change _ = ite _ _ _
    split
    · rfl
    · rw [← joinCost_congr hleft hright]
      exact snd_annotate _ _

/-- Pricing changes nothing of a plan but its costs. -/
theorem clear_price (threshold : κ) (p : Plan κ) (s : Session κ) :
    ((ctx.price threshold p).run s).1.1.clear = p.clear := by
  induction p generalizing s with
  | leaf e cost =>
    cases cost with
    | some cost => rfl
    | none => exact clear_annotate _ _
  | filter kind child cost ih =>
    cases cost with
    | some cost => rfl
    | none =>
      rw [price_filter]
      exact (clear_priceFilter kind _ _).trans (congrArg (Plan.filter kind · none) (ih s))
  | join kind left right on hints cost ihl ihr =>
    cases cost with
    | some cost => rfl
    | none =>
      rw [price_join]
      have hleft := ihl s
      change ((ctx.priceJoinLeft threshold kind right on hints
        ((ctx.price threshold left).run s).1).run _).1.1.clear = _
      generalize ((ctx.price threshold left).run s).1 = left' at hleft ⊢
      obtain ⟨left', e | l⟩ := left'
      · exact congrArg (Plan.join kind · right.clear on hints none) hleft
      · rw [priceJoinLeft]
        split
        · exact (clear_annotate _ _).trans (congrArg (Plan.join kind · right.clear on hints none) hleft)
        · exact (clear_priceJoin kind _ l on hints _ _).trans
            (congrArg₂ (Plan.join kind · · on hints none) hleft (ihr _))

theorem toExpr_price (threshold : κ) (p : Plan κ) (s : Session κ) :
    ((ctx.price threshold p).run s).1.1.toExpr = p.toExpr := by
  rw [← Plan.toExpr_clear, clear_price, Plan.toExpr_clear]

variable (ctx) in
/-- The cost that pricing finds for a bare tree. -/
def estimate (s : Session κ) (threshold : κ) (e : Expr) : Except PlanError (Cost κ) :=
  ((ctx.price threshold (.ofExpr e)).run s).1.2

theorem estimate_congr (h : ctx.Agree s s') (threshold : κ) (e : Expr) :
    ctx.estimate s threshold e = ctx.estimate s' threshold e :=
  congrArg Prod.snd ((Repeatable.price threshold _).same h)

theorem estimate_leaf {e : Expr} (hfilter : ∀ kind child, e ≠ .filter kind child)
    (hjoin : ∀ kind left right on hints, e ≠ .join kind left right on hints) :
    ctx.estimate s threshold e = (ctx.leafCost e).result s := by
  rw [estimate, Plan.ofExpr.eq_3 e hfilter hjoin]
  exact snd_annotate _ _

theorem estimate_filter (kind : FilterKind Expr) (child : Expr) :
    ctx.estimate s threshold (.filter kind child) = (do
      let input ← ctx.estimate s threshold child
      if lt threshold input.time then return ⟨input.rows, infinity⟩
      else (ctx.filterCost kind (.ofExpr child) input).result s) := by
  rw [estimate, Plan.ofExpr, price_filter,
    (Repeatable.price threshold _).result_bind (Repeatable.priceFilter threshold kind)]
  exact snd_priceFilter (toExpr_price threshold (.ofExpr child) s) kind s

theorem estimate_join (kind : JoinKind) (left right : Expr) (on : Option Expr) (hints : JoinHints) :
    ctx.estimate s threshold (.join kind left right on hints) = (do
      let l ← ctx.estimate s threshold left
      if lt threshold l.time then return ⟨l.rows, infinity⟩
      else
        let r ← ctx.estimate s threshold right
        if lt threshold r.time then return ⟨l.rows * r.rows, infinity⟩
        else (ctx.joinCost kind (.ofExpr left) (.ofExpr right) on hints l r).result s) := by
  have hleft : ((ctx.price threshold (.ofExpr left)).run s).1.1.toExpr = _ := toExpr_price threshold _ s
  have hright : ((ctx.price threshold (.ofExpr right)).run s).1.1.toExpr = _ := toExpr_price threshold _ s
  rw [estimate, estimate, Plan.ofExpr, price_join, (Repeatable.price threshold _).result_bind
    (Repeatable.priceJoinLeft (Repeatable.price threshold _) kind on hints)]
  generalize ((ctx.price threshold (.ofExpr left)).run s).1 = p at hleft ⊢
  obtain ⟨p, e | l⟩ := p
  · rfl
  · rw [priceJoinLeft]
    change _ = ite _ _ _
    split
    · rfl
    · rw [(Repeatable.price threshold _).result_bind (Repeatable.priceJoin threshold kind p l on hints)]
      exact snd_priceJoin hleft hright kind l on hints s

theorem pure_or_eq_ok {ε α : Type} {b : Bool} {x a : α} {y : Except ε α} :
    (if b = true then pure x else y) = .ok a ↔ b = true ∧ a = x ∨ b = false ∧ y = .ok a := by
  cases b <;> simp [pure, Except.pure, eq_comm]

variable {kind : FilterKind Expr} {child : Expr} {c : Cost κ}

theorem estimate_filter_eq_ok : ctx.estimate s threshold (.filter kind child) = .ok c ↔
    ∃ input, ctx.estimate s threshold child = .ok input ∧
      (lt threshold input.time = true ∧ c = ⟨input.rows, infinity⟩ ∨
        lt threshold input.time = false ∧ (ctx.filterCost kind (.ofExpr child) input).result s = .ok c) := by
  rw [estimate_filter, bind_eq_ok]
  exact exists_congr fun input => and_congr_right fun _ => pure_or_eq_ok

theorem estimate_join_eq_ok {kind : JoinKind} {left right : Expr} {on : Option Expr} {hints : JoinHints} :
    ctx.estimate s threshold (.join kind left right on hints) = .ok c ↔
      ∃ l, ctx.estimate s threshold left = .ok l ∧
        (lt threshold l.time = true ∧ c = ⟨l.rows, infinity⟩ ∨
          lt threshold l.time = false ∧ ∃ r, ctx.estimate s threshold right = .ok r ∧
            (lt threshold r.time = true ∧ c = ⟨l.rows * r.rows, infinity⟩ ∨
              lt threshold r.time = false ∧
                (ctx.joinCost kind (.ofExpr left) (.ofExpr right) on hints l r).result s = .ok c)) := by
  rw [estimate_join, bind_eq_ok]
  refine exists_congr fun l => and_congr_right fun _ => pure_or_eq_ok.trans ?_
  refine or_congr_right (and_congr_right fun _ => bind_eq_ok.trans ?_)
  exact exists_congr fun r => and_congr_right fun _ => pure_or_eq_ok

/-! ### The rules of the model -/

section Rules

open CostNumber (ofCount)

variable (ctx s)

/-- The cost of a filter of each kind over an input. -/
inductive FilterRule (child : Plan κ) (input : Cost κ) : FilterKind Expr → Cost κ → Prop
  | probed {predicate path count} (h : (ctx.probedRows path child).result s = .ok (some count)) :
      FilterRule child input (.select predicate path)
        ⟨CostNumber.min (ofCount count) input.rows, input.time + ctx.twoLookups⟩
  | scanned {predicate path points} (hpath : (ctx.probedRows path child).result s = .ok none)
      (hpoints : (ctx.selectivity predicate).result s = .ok points) :
      FilterRule child input (.select predicate path)
        ⟨input.rows * (ofCount points / ofCount divisionPoints),
          input.time + input.rows * ctx.config.scanFactor⟩
  | ordered {keys path} (h : (path.isSome || OrderKey.satisfies child.toExpr.naturalOrder keys) = true) :
      FilterRule child input (.sort keys path) ⟨input.rows, input.time + ctx.twoLookups⟩
  | sorted {keys path} (h : (path.isSome || OrderKey.satisfies child.toExpr.naturalOrder keys) = false) :
      FilterRule child input (.sort keys path)
        ⟨input.rows, input.time + input.rows * ctx.config.indexLookupCost⟩
  | guard (predicate : Expr) : FilterRule child input (.guard predicate) input
  | computed : FilterRule child input .computed input
  | aggregate (columns : List Expr) : FilterRule child input (.aggregate columns) input

/-- The cost of a join of each kind over its inputs, `c` being what its condition alone comes to. -/
inductive JoinRule (c l r : Cost κ) : JoinKind → Cost κ → Prop
  | cartesian : JoinRule c l r .cartesian ⟨l.rows * r.rows, l.time + r.time⟩
  | inner : JoinRule c l r .inner c
  | outer (h : lt c.rows l.rows = false) : JoinRule c l r .leftOuter c
  | raised (h : lt c.rows l.rows = true) : JoinRule c l r .leftOuter ⟨l.rows, c.time⟩

variable {ctx s}

theorem filterRule_of_filterCost {child : Plan κ} {input : Cost κ}
    (h : (ctx.filterCost kind child input).result s = .ok c) : ctx.FilterRule s child input kind c := by
  cases kind with
  | select predicate path =>
    have hscan : ctx.Repeatable (ctx.selectivity predicate).run := .selectivity predicate
    obtain ⟨count, hcount, h⟩ := Repeatable.of_result_bind_eq_ok h (.probedRows path child) fun count =>
      match count with
      | some count => .pure _
      | none => hscan.bind_run fun _ => .pure _
    cases count with
    | some count => cases h; exact .probed hcount
    | none =>
      obtain ⟨points, hpoints, h⟩ := Repeatable.of_result_bind_eq_ok h hscan fun _ => .pure _
      cases h
      exact .scanned hcount hpoints
  | sort keys path =>
    cases hpath : path.isSome || OrderKey.satisfies child.toExpr.naturalOrder keys with
    | true =>
      rw [filterCost, if_pos hpath] at h
      cases h
      exact .ordered hpath
    | false =>
      rw [filterCost, hpath] at h
      cases h
      exact .sorted hpath
  | guard predicate => cases h; exact .guard predicate
  | computed => cases h; exact .computed
  | aggregate columns => cases h; exact .aggregate columns

theorem eq_of_leafCost {e : Expr} (h : (ctx.leafCost e).result s = .ok c) :
    ∃ n, c = ⟨ofCount n, ofCount 0⟩ := by
  unfold leafCost at h
  split at h
  · cases hrows : ctx.catalog.rowCount _ with
    | error e => rw [hrows] at h; cases h
    | ok n => rw [hrows] at h; cases h; exact ⟨n, rfl⟩
  · cases h
  · cases h; exact ⟨1, rfl⟩
  · cases h

theorem joinRule_of_joinCost {kind : JoinKind} {on : Option Expr} {hints : JoinHints} {l r : Cost κ}
    (h : (ctx.joinCost kind left right on hints l r).result s = .ok c) : JoinRule
      (ctx.conditionCost (on.bind fun e => SimpleRelation.detect e left.relations right.relations) hints
        (hints.fact.bind s.statistics.fact?) l r) l r kind c := by
  cases kind with
  | cartesian => cases h; exact .cartesian
  | inner => cases h; exact .inner
  | leftOuter =>
    set cost := ctx.conditionCost _ hints (hints.fact.bind s.statistics.fact?) l r
    have hresult : (ctx.joinCost .leftOuter left right on hints l r).result s =
        if lt cost.rows l.rows then .ok ⟨l.rows, cost.time⟩ else .ok cost := by
      change PlanM.result (if (true && lt cost.rows l.rows) = true then _ else _) s = _
      rw [Bool.true_and]
      split <;> rfl
    rw [hresult] at h
    cases hlt : lt cost.rows l.rows <;> rw [hlt] at h <;> rw [← Except.ok.inj h]
    · exact .outer hlt
    · exact .raised hlt
  | rightOuter | fullOuter => cases h

end Rules

end CostContext

end JoinPlanner
