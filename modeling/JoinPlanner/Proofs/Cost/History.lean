import JoinPlanner.Proofs.Cost.Estimate
import JoinPlanner.Proofs.Cost.Lawful

/-!
# Pricing after any history

Several plans are priced and cleared, in any order and up to any thresholds, in one session, which warms its
stores on the way. A plan that is then cleared and priced without a threshold gets what a fresh copy of its
tree gets in a fresh session (`price_after_calls`): pricing changes nothing of a plan but its costs
(`clear_price`), and a session keeps nothing but what it finds (`CostContext.Faithful`).
-/

namespace JoinPlanner

variable {κ : Type}

namespace Plan

theorem clear_ofExpr (e : Expr) : (ofExpr e : Plan κ).clear = ofExpr e := by
  induction e using ofExpr.induct <;> simp_all [ofExpr, clear]

theorem clear_clear (p : Plan κ) : p.clear.clear = p.clear := by
  induction p <;> simp_all [clear]

/-- Whether every operator has a cost. -/
def isPriced : Plan κ → Bool
  | leaf _ cost => cost.isSome
  | filter _ child cost => cost.isSome && child.isPriced
  | join _ left right _ _ cost => cost.isSome && left.isPriced && right.isPriced

end Plan

/-- A call that the plans of one session may see. -/
inductive PricingCall (κ : Type)
  | price (plan : Nat) (threshold : κ)
  | clear (plan : Nat)
  | probe (path : AccessPath) (range : KeyRange)
  | column (c : ColumnRef)

/-- Plans and the session in which they are priced. -/
structure Workbench (κ : Type) where
  plans : List (Plan κ)
  session : Session κ

/-- A session that has found nothing yet, with the facts of its store. -/
def Session.fresh (facts : List (FactKey × Option κ)) : Session κ := { statistics := { facts } }

namespace CostContext

/-- What a call makes of the plans and the session; a plan that is priced is kept with the costs that it got,
whether or not pricing came to an error. -/
def perform [CostNumber κ] (ctx : CostContext κ) (w : Workbench κ) : PricingCall κ → Workbench κ
  | .price i threshold =>
    match w.plans[i]? with
    | some p =>
      let priced := (ctx.price threshold p).run w.session
      ⟨w.plans.set i priced.1.1, priced.2⟩
    | none => w
  | .clear i => { w with plans := w.plans.modify i Plan.clear }
  | .probe path range => { w with session := ((ctx.probe path range).run.run w.session).2 }
  | .column c =>
    { w with session := ((SessionM.ofStatistics (Statistics.column ctx.catalog c)).run.run w.session).2 }

/-- Bare trees in a fresh session, after some calls. -/
def after [CostNumber κ] (ctx : CostContext κ) (trees : List Expr) (facts : List (FactKey × Option κ))
    (calls : List (PricingCall κ)) : Workbench κ :=
  calls.foldl ctx.perform ⟨trees.map .ofExpr, .fresh facts⟩

variable [CostNumber κ] {ctx : CostContext κ}

/-- Of a workbench that began with bare trees in a fresh session: the plans are these trees but for their
costs, and the session answers as the fresh one and keeps nothing but what it finds. -/
structure Keeps (ctx : CostContext κ) (trees : List Expr) (facts : List (FactKey × Option κ))
    (w : Workbench κ) : Prop where
  plans (i : Nat) : w.plans[i]?.map Plan.clear = trees[i]?.map Plan.ofExpr
  agree : ctx.Agree (.fresh facts) w.session
  faithful : ctx.Faithful w.session

theorem Keeps.perform {trees : List Expr} {facts : List (FactKey × Option κ)} {w : Workbench κ}
    (h : ctx.Keeps trees facts w) (call : PricingCall κ) : ctx.Keeps trees facts (ctx.perform w call) := by
  cases call with
  | price i threshold =>
    cases hp : w.plans[i]? with
    | none =>
      have hnone : ctx.perform w (.price i threshold) = w := by rw [CostContext.perform, hp]
      rwa [hnone]
    | some p =>
      have hsome : ctx.perform w (.price i threshold) =
          ⟨w.plans.set i ((ctx.price threshold p).run w.session).1.1, ((ctx.price threshold p).run w.session).2⟩ := by
        rw [CostContext.perform, hp]
      have hrepeat : ctx.Repeatable (ctx.price threshold p) := .price threshold p
      rw [hsome]
      refine ⟨fun j => ?_, h.agree.trans (hrepeat.agree _), hrepeat.faithful h.faithful⟩
      rw [← h.plans j, List.getElem?_set]
      split
      · next hij =>
        subst hij
        have hi : i < w.plans.length := (List.getElem?_eq_some_iff.1 hp).1
        rw [if_pos hi, hp, Option.map_some, Option.map_some, clear_price]
      · rfl
  | clear i =>
    refine ⟨fun j => ?_, h.agree, h.faithful⟩
    rw [← h.plans j]
    show (w.plans.modify i Plan.clear)[j]?.map Plan.clear = _
    rw [List.getElem?_modify]
    cases w.plans[j]? with
    | none => rfl
    | some p =>
      show some (Plan.clear (if i = j then p.clear else p)) = some p.clear
      split
      · rw [Plan.clear_clear]
      · rfl
  | probe path range =>
    have hrepeat : ctx.Repeatable (ctx.probe path range).run := .probe path range
    exact ⟨h.plans, h.agree.trans (hrepeat.agree _), hrepeat.faithful h.faithful⟩
  | column c => exact ⟨h.plans, h.agree.trans (agree_column c _), faithful_column c h.faithful⟩

theorem keeps_after (ctx : CostContext κ) (trees : List Expr) (facts : List (FactKey × Option κ))
    (calls : List (PricingCall κ)) : ctx.Keeps trees facts (ctx.after trees facts calls) := by
  have hstart : ctx.Keeps trees facts ⟨trees.map .ofExpr, .fresh facts⟩ := by
    refine ⟨fun i => ?_, .refl _, .nil, .nil⟩
    rw [List.getElem?_map, Option.map_map]
    congr 1
    funext e
    exact Plan.clear_ofExpr e
  exact List.foldlRecOn calls ctx.perform hstart fun w h call _ => h.perform call

variable [LawfulCostNumber κ]

open CostNumber (infinity)

theorem isPriced_priceFilter {kind : FilterKind Expr} {child : Plan κ × Except PlanError (Cost κ)}
    (hchild : ∀ c, child.2 = .ok c → child.1.isPriced = true) {s : Session κ} {q : Plan κ} {c : Cost κ}
    (h : ((ctx.priceFilter infinity kind child).run s).1 = (q, .ok c)) : q.isPriced = true := by
  obtain ⟨child, e | input⟩ := child
  · cases h
  · rw [priceFilter, LawfulCostNumber.infinity_lt] at h
    change annotate (.filter kind child none) ((ctx.filterCost kind child input).result s) = _ at h
    rw [eq_of_annotate h]
    exact hchild input rfl

theorem isPriced_priceJoin {kind : JoinKind} {left : Plan κ} {l : Cost κ} {on : Option Expr} {hints : JoinHints}
    {right : Plan κ × Except PlanError (Cost κ)} (hleft : left.isPriced = true)
    (hright : ∀ c, right.2 = .ok c → right.1.isPriced = true) {s : Session κ} {q : Plan κ} {c : Cost κ}
    (h : ((ctx.priceJoin infinity kind left l on hints right).run s).1 = (q, .ok c)) : q.isPriced = true := by
  obtain ⟨right, e | r⟩ := right
  · cases h
  · rw [priceJoin, LawfulCostNumber.infinity_lt] at h
    change annotate (.join kind left right on hints none)
      ((ctx.joinCost kind left right on hints l r).result s) = _ at h
    rw [eq_of_annotate h]
    exact Bool.and_eq_true_iff.2 ⟨hleft, hright r rfl⟩

/-- Without a threshold every operator gets a cost, unless there is an error. -/
theorem isPriced_price (p : Plan κ) (s : Session κ) {q : Plan κ} {c : Cost κ}
    (h : ((ctx.price infinity p.clear).run s).1 = (q, .ok c)) : q.isPriced = true := by
  induction p generalizing s q c with
  | leaf e cost =>
    change annotate (.leaf e none) ((ctx.leafCost e).result s) = _ at h
    rw [eq_of_annotate h]
    rfl
  | filter kind child cost ih =>
    rw [Plan.clear, price_filter] at h
    exact isPriced_priceFilter (fun c hc => ih s (Prod.ext rfl hc)) h
  | join kind left right on hints cost ihl ihr =>
    rw [Plan.clear, price_join] at h
    change ((ctx.priceJoinLeft infinity kind right.clear on hints
      ((ctx.price infinity left.clear).run s).1).run ((ctx.price infinity left.clear).run s).2).1 = _ at h
    cases hl : ((ctx.price infinity left.clear).run s).1 with
    | mk left' l =>
      rw [hl] at h
      cases l with
      | error e => cases h
      | ok l =>
        rw [priceJoinLeft, LawfulCostNumber.infinity_lt] at h
        exact isPriced_priceJoin (ihl s hl) (fun c hc => ihr _ (Prod.ext rfl hc)) h

/-- After any calls in a session, on this plan and on others, a plan that is cleared and priced without a
threshold gets what a bare copy gets in a fresh session with the same facts, with a cost at every operator if
there is no error. The session keeps one count for all ranges of an index that are equal, and it is the count
that the catalog gives for each of them. -/
theorem price_after_calls (ctx : CostContext κ) (trees : List Expr) (facts : List (FactKey × Option κ))
    (calls : List (PricingCall κ)) :
    (∀ (i : Nat) (tree : Expr), trees[i]? = some tree → ∃ p : Plan κ, (ctx.after trees facts calls).plans[i]? = some p ∧
      ((ctx.price infinity p.clear).run (ctx.after trees facts calls).session).1 =
        ((ctx.price infinity (.ofExpr tree)).run (.fresh facts)).1 ∧
      ∀ q c, ((ctx.price infinity p.clear).run (ctx.after trees facts calls).session).1 = (q, .ok c) →
        q.isPriced = true) ∧
    (ctx.after trees facts calls).session.probes.Pairwise (fun a b => (a.1 == b.1) = false) ∧
    ∀ entry ∈ (ctx.after trees facts calls).session.probes, ∀ (path : AccessPath) (range : KeyRange),
      ((path.table, path.index, range) == entry.1) = true →
        ctx.catalog.probe path.table path.index range = .ok entry.2 ∧
        (ctx.probe path range).run.run (ctx.after trees facts calls).session =
          (.ok entry.2, (ctx.after trees facts calls).session) := by
  have hkeeps := keeps_after ctx trees facts calls
  refine ⟨fun i tree htree => ?_, hkeeps.faithful.probes.distinct, fun entry hentry path range hkey =>
    hkeeps.faithful.run_probe hentry hkey⟩
  have hplan := hkeeps.plans i
  rw [htree, Option.map_some] at hplan
  obtain ⟨p, hp, hclear⟩ := Option.map_eq_some_iff.1 hplan
  refine ⟨p, hp, ?_, fun q c hq => isPriced_price p _ hq⟩
  rw [hclear]
  exact (Repeatable.price infinity _).same hkeeps.agree.symm

/-! One index, probed with the same key written as an integer and as a float. -/

/-- A table of three rows with an index. -/
def indexedTable : CostContext Exact where
  catalog :=
    let rows : Array (List Value) := #[[.int 1], [.int 2], [.int 3]]
    ⟨[(⟨none, "t"⟩, { columns := ["x"], rows, indexes := [.ofColumns "t_x" ["x"]] })]⟩
  baseTables := [(⟨none, "a"⟩, ⟨none, "t"⟩)]
  config := .standard Exact

/-- The rows of the table with a value of `x`, through the index. -/
def pointFilter (v : Value) : Expr :=
  let range : KeyRange := .comparing .eq [v]
  .filter (.select (.inRange ⟨⟨none, "a"⟩, "x"⟩ range) (some ⟨⟨none, "t"⟩, ⟨none, "a"⟩, "t_x", ["x"], some range⟩))
    (.relation ⟨none, "a"⟩ ⟨none, "t"⟩)

/-- Two equal filters, and a join with a table that is not there. -/
def mixedTrees : List Expr :=
  [pointFilter (.int 1), pointFilter (.float 1.0),
    .join .cartesian (pointFilter (.int 2)) (.relation ⟨none, "b"⟩ ⟨none, "u"⟩) none {}]

/-- One plan is given up, one fails, one is priced, cleared and priced again. -/
def mixedCalls : List (PricingCall Exact) :=
  [.price 0 (-1 : ℚ), .price 2 infinity, .price 1 infinity, .clear 1, .column ⟨⟨none, "t"⟩, "x"⟩, .price 1 (2 : ℚ)]

theorem price_after_calls_mixedCalls : ∃ p q : Plan Exact,
    (indexedTable.after mixedTrees [] mixedCalls).plans[0]? = some p ∧ p.cost?.map (·.time) = some ⊤ ∧
    ((indexedTable.price infinity p.clear).run (indexedTable.after mixedTrees [] mixedCalls).session).1 =
      (q, .ok ⟨(1 : ℚ), (4 : ℚ)⟩) ∧ q.isPriced = true ∧
    (indexedTable.after mixedTrees [] mixedCalls).session.probes.length = 2 := by
  obtain ⟨hplans, -, -⟩ := price_after_calls indexedTable mixedTrees [] mixedCalls
  obtain ⟨p, hp, hprice, hpriced⟩ := hplans 0 (pointFilter (.int 1)) rfl
  have hgivenUp : ((indexedTable.after mixedTrees [] mixedCalls).plans[0]?.bind Plan.cost?).map (·.time) =
      some (⊤ : Exact) := by
    decide +kernel
  have hcost : ((indexedTable.price infinity (.ofExpr (pointFilter (.int 1)))).run (.fresh [])).1.2.toOption =
      some (⟨(1 : ℚ), (4 : ℚ)⟩ : Cost Exact) := by
    decide +kernel
  have hprobes : (indexedTable.after mixedTrees [] mixedCalls).session.probes.length = 2 := by decide +kernel
  rw [hp] at hgivenUp
  cases hfresh : ((indexedTable.price infinity (.ofExpr (pointFilter (.int 1)))).run (.fresh [])).1 with
  | mk q r =>
    rw [hfresh] at hcost hprice
    cases r with
    | error e => cases hcost
    | ok c =>
      obtain rfl := Option.some.inj hcost
      exact ⟨p, q, hp, hgivenUp, hprice, hpriced q _ hprice, hprobes⟩

end CostContext

end JoinPlanner
