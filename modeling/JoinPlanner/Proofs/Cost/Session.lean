import JoinPlanner.Cost.Model
import JoinPlanner.Proofs.Range.Equality

/-!
# What sessions answer

Pricing asks a session for column profiles, for counts of rows and for facts, and keeps what it finds there.
Two sessions agree if they give the same answers (`CostContext.Agree`). To keep what was found changes no
answer (`answer_keep`), so every action of the cost model is repeatable: it comes to one result in all sessions
that agree, and leaves a session that agrees with the one that it began with. The result of a sequence of
such actions is then a matter of one session alone (`Repeatable.result_bind`).
-/

namespace JoinPlanner

variable {κ α β ε : Type}

theorem lookup_congr [BEq α] [PartialEquivBEq α] {a b : α} (h : (a == b) = true) (l : List (α × β)) :
    l.lookup a = l.lookup b := by
  induction l with
  | nil => rfl
  | cons entry l ih => rw [List.lookup_cons, List.lookup_cons, BEq.congr_left h, ih]

/-- What is kept under a key, or else found. -/
def answer [BEq α] (kept : List (α × β)) (find : α → Except ε β) (key : α) : Except ε β :=
  match kept.lookup key with
  | some b => .ok b
  | none => find key

/-- What is kept once a key was asked for. -/
def keep [BEq α] (kept : List (α × β)) (find : α → Except ε β) (key : α) : List (α × β) :=
  match kept.lookup key, find key with
  | none, .ok b => (key, b) :: kept
  | _, _ => kept

/-- To ask for a key changes no answer, if keys that are equal find the same. -/
theorem answer_keep [BEq α] [PartialEquivBEq α] {kept : List (α × β)} {find : α → Except ε β} {key : α}
    (hfind : ∀ a, (a == key) = true → find a = find key) :
    answer (keep kept find key) find = answer kept find := by
  unfold keep
  split
  case h_1 b hnone hb =>
    funext a
    unfold answer
    rw [List.lookup_cons]
    cases h : a == key with
    | false => rfl
    | true => rw [lookup_congr h, hnone, hfind a h, hb]
  case h_2 => rfl

/-- What is kept was found, under each key once. -/
structure Kept [BEq α] (find : α → Except ε β) (kept : List (α × β)) : Prop where
  distinct : kept.Pairwise fun a b => (a.1 == b.1) = false
  found : ∀ entry ∈ kept, find entry.1 = .ok entry.2

namespace Kept

variable [BEq α] {find : α → Except ε β} {kept : List (α × β)}

theorem nil : Kept find [] := ⟨.nil, fun _ h => absurd h List.not_mem_nil⟩

theorem keep (h : Kept find kept) (key : α) : Kept find (JoinPlanner.keep kept find key) := by
  unfold JoinPlanner.keep
  split
  case h_1 b hnone hb =>
    refine ⟨List.pairwise_cons.2 ⟨fun entry hentry => ?_, h.distinct⟩, List.forall_mem_cons.2 ⟨hb, h.found⟩⟩
    have hne := List.lookup_eq_none_iff.1 hnone entry hentry
    rwa [bne, Bool.not_eq_true'] at hne
  case h_2 => exact h

variable [PartialEquivBEq α]

/-- The one entry whose key equals a given one is what is looked up. -/
theorem lookup_eq (h : Kept find kept) {entry : α × β} (hentry : entry ∈ kept) {key : α}
    (hkey : (key == entry.1) = true) : kept.lookup key = some entry.2 := by
  induction kept with
  | nil => cases hentry
  | cons first rest ih =>
    obtain ⟨hfirst, hrest⟩ := List.pairwise_cons.1 h.distinct
    rw [List.lookup_cons]
    rcases List.mem_cons.1 hentry with rfl | hmem
    · rw [hkey]
    · have hne : (key == first.1) = false := by
        rw [Bool.eq_false_iff]
        intro heq
        have := BEq.trans (BEq.symm heq) hkey
        rw [hfirst entry hmem] at this
        cases this
      rw [hne]
      exact ih ⟨hrest, fun e he => h.found e (.tail _ he)⟩ hmem

end Kept

instance partialEquivBEqProd [BEq α] [BEq β] [PartialEquivBEq α] [PartialEquivBEq β] :
    PartialEquivBEq (α × β) where
  symm h := by
    obtain ⟨ha, hb⟩ := Bool.and_eq_true_iff.1 h
    exact Bool.and_eq_true_iff.2 ⟨BEq.symm ha, BEq.symm hb⟩
  trans h h' := by
    obtain ⟨ha, hb⟩ := Bool.and_eq_true_iff.1 h
    obtain ⟨ha', hb'⟩ := Bool.and_eq_true_iff.1 h'
    exact Bool.and_eq_true_iff.2 ⟨BEq.trans ha ha', BEq.trans hb hb'⟩

/-- Equal ranges, however their bounds are written, have the same number of rows. -/
theorem Catalog.probe_congr (c : Catalog) (name : TableName) (index : String) {r s : KeyRange}
    (h : (r == s) = true) : c.probe name index r = c.probe name index s := by
  unfold Catalog.probe
  simp only [KeyRange.contains_congr h]

theorem run_get_bind {σ : Type} (f : σ → ExceptT ε (StateM σ) α) (s : σ) :
    (get >>= f).run.run s = (f s).run.run s := rfl

/-- What an action comes to from a state. -/
def PlanM.result {S : Type} (x : PlanM S α) (s : S) : Except PlanError α := (x.run.run s).1

/-- The profile of a column as a session finds it. -/
def Catalog.findProfile (catalog : Catalog) (c : ColumnRef) : Except PlanError ColumnProfile :=
  (ColumnProfile.sample catalog c).mapError .catalog

theorem Statistics.run_column (catalog : Catalog) (c : ColumnRef) (s : Statistics κ) :
    (Statistics.column catalog c).run.run s = (answer s.columns catalog.findProfile c,
      { s with columns := keep s.columns catalog.findProfile c }) := by
  rw [Statistics.column, run_get_bind, answer, keep, Catalog.findProfile]
  cases s.columns.lookup c with
  | some p => rfl
  | none => cases ColumnProfile.sample catalog c <;> rfl

namespace CostContext

variable (ctx : CostContext κ)

/-- The count of a range as a session finds it. -/
def findCount (key : TableName × String × KeyRange) : Except PlanError Nat :=
  (ctx.catalog.probe key.1 key.2.1 key.2.2).mapError .catalog

theorem findCount_congr {a b : TableName × String × KeyRange} (h : (a == b) = true) :
    ctx.findCount a = ctx.findCount b := by
  obtain ⟨htable, hrest⟩ := Bool.and_eq_true_iff.1 h
  obtain ⟨hindex, hrange⟩ := Bool.and_eq_true_iff.1 hrest
  rw [findCount, findCount, eq_of_beq htable, eq_of_beq hindex, Catalog.probe_congr _ _ _ hrange]

theorem run_column (c : ColumnRef) (s : Session κ) :
    (SessionM.ofStatistics (Statistics.column ctx.catalog c)).run.run s =
      (answer s.statistics.columns ctx.catalog.findProfile c,
        { s with statistics.columns := keep s.statistics.columns ctx.catalog.findProfile c }) := by
  change ((Statistics.column ctx.catalog c).run.run s.statistics).map id
    (fun statistics => { s with statistics }) = _
  rw [Statistics.run_column]
  rfl

theorem run_profile (c : ColumnRef) (s : Session κ) : (ctx.profile c).run.run s =
    (answer s.statistics.columns ctx.catalog.findProfile (ctx.baseColumn c),
      { s with statistics.columns := keep s.statistics.columns ctx.catalog.findProfile (ctx.baseColumn c) }) :=
  ctx.run_column (ctx.baseColumn c) s

theorem run_probe (path : AccessPath) (range : KeyRange) (s : Session κ) : (ctx.probe path range).run.run s =
    (answer s.probes ctx.findCount (path.table, path.index, range),
      { s with probes := keep s.probes ctx.findCount (path.table, path.index, range) }) := by
  rw [CostContext.probe, run_get_bind, answer, keep, findCount]
  cases s.probes.lookup (path.table, path.index, range) with
  | some n => rfl
  | none => cases ctx.catalog.probe path.table path.index range <;> rfl

/-! ### Agreement -/

/-- The sessions hold the same facts and give the same answers. -/
structure Agree (s s' : Session κ) : Prop where
  facts : s.statistics.facts = s'.statistics.facts
  profile (c : ColumnRef) : (ctx.profile c).result s = (ctx.profile c).result s'
  probe (path : AccessPath) (range : KeyRange) :
    (ctx.probe path range).result s = (ctx.probe path range).result s'

namespace Agree

variable {ctx} {s s' s'' : Session κ}

theorem refl (s : Session κ) : ctx.Agree s s := ⟨rfl, fun _ => rfl, fun _ _ => rfl⟩

theorem symm (h : ctx.Agree s s') : ctx.Agree s' s :=
  ⟨h.facts.symm, fun c => (h.profile c).symm, fun path range => (h.probe path range).symm⟩

theorem trans (h : ctx.Agree s s') (h' : ctx.Agree s' s'') : ctx.Agree s s'' where
  facts := h.facts.trans h'.facts
  profile c := (h.profile c).trans (h'.profile c)
  probe path range := (h.probe path range).trans (h'.probe path range)

theorem fact? (h : ctx.Agree s s') (key : FactKey) : s.statistics.fact? key = s'.statistics.fact? key := by
  rw [Statistics.fact?, Statistics.fact?, h.facts]

theorem of_answers (hfacts : s.statistics.facts = s'.statistics.facts)
    (hcolumns : answer s.statistics.columns ctx.catalog.findProfile =
      answer s'.statistics.columns ctx.catalog.findProfile)
    (hprobes : answer s.probes ctx.findCount = answer s'.probes ctx.findCount) : ctx.Agree s s' where
  facts := hfacts
  profile c := by rw [PlanM.result, PlanM.result, run_profile, run_profile, hcolumns]
  probe path range := by rw [PlanM.result, PlanM.result, run_probe, run_probe, hprobes]

end Agree

/-- What the session keeps was found in the catalog, under each key once. -/
structure Faithful (s : Session κ) : Prop where
  columns : Kept ctx.catalog.findProfile s.statistics.columns
  probes : Kept ctx.findCount s.probes

variable {ctx} in
/-- A range that equals one that was probed is answered from what is kept. -/
theorem Faithful.run_probe {s : Session κ} (h : ctx.Faithful s) {entry : (TableName × String × KeyRange) × Nat}
    (hentry : entry ∈ s.probes) {path : AccessPath} {range : KeyRange}
    (hkey : ((path.table, path.index, range) == entry.1) = true) :
    ctx.catalog.probe path.table path.index range = .ok entry.2 ∧
      (ctx.probe path range).run.run s = (.ok entry.2, s) := by
  have hfound : ctx.findCount (path.table, path.index, range) = .ok entry.2 :=
    (ctx.findCount_congr hkey).trans (h.probes.found entry hentry)
  have hlookup := h.probes.lookup_eq hentry hkey
  constructor
  · rw [findCount] at hfound
    cases hprobe : ctx.catalog.probe path.table path.index range with
    | error e => rw [hprobe] at hfound; cases hfound
    | ok n => rw [hprobe] at hfound; cases hfound; rfl
  · rw [CostContext.run_probe, answer, keep, hlookup]

/-- The action comes to one result in sessions that agree, leaves a session that agrees with the first, and
keeps nothing but what it finds. -/
structure Repeatable (x : StateM (Session κ) α) : Prop where
  same {s s' : Session κ} : ctx.Agree s s' → (x.run s).1 = (x.run s').1
  agree (s : Session κ) : ctx.Agree s (x.run s).2
  faithful {s : Session κ} : ctx.Faithful s → ctx.Faithful (x.run s).2

variable {ctx} in
theorem agree_column (c : ColumnRef) (s : Session κ) :
    ctx.Agree s ((SessionM.ofStatistics (Statistics.column ctx.catalog c)).run.run s).2 := by
  rw [run_column]
  refine .of_answers rfl (answer_keep fun a h => ?_).symm rfl
  rw [eq_of_beq h]

variable {ctx} in
theorem faithful_column (c : ColumnRef) {s : Session κ} (h : ctx.Faithful s) :
    ctx.Faithful ((SessionM.ofStatistics (Statistics.column ctx.catalog c)).run.run s).2 := by
  rw [run_column]
  exact ⟨h.columns.keep c, h.probes⟩

namespace Repeatable

variable {ctx}

theorem pure (a : α) : ctx.Repeatable (pure a) := ⟨fun _ => rfl, .refl, id⟩

theorem bind {x : StateM (Session κ) α} {f : α → StateM (Session κ) β} (hx : ctx.Repeatable x)
    (hf : ∀ a, ctx.Repeatable (f a)) : ctx.Repeatable (x >>= f) where
  same {s s'} h := by
    have hafter := ((hx.agree s).symm.trans h).trans (hx.agree s')
    calc ((f (x.run s).1).run (x.run s).2).1
      _ = ((f (x.run s').1).run (x.run s).2).1 := by rw [hx.same h]
      _ = ((f (x.run s').1).run (x.run s').2).1 := (hf _).same hafter
  agree s := (hx.agree s).trans ((hf _).agree _)
  faithful h := (hf _).faithful (hx.faithful h)

/-- The second action comes to what it comes to in the session before the first. -/
theorem result_bind {x : StateM (Session κ) α} {f : α → StateM (Session κ) β} (hx : ctx.Repeatable x)
    (hf : ∀ a, ctx.Repeatable (f a)) (s : Session κ) : ((x >>= f).run s).1 = ((f (x.run s).1).run s).1 :=
  (hf _).same (hx.agree s).symm

theorem bind_run {x : SessionM κ α} {f : α → SessionM κ β} (hx : ctx.Repeatable x.run)
    (hf : ∀ a, ctx.Repeatable (f a).run) : ctx.Repeatable (x >>= f).run := by
  rw [ExceptT.run_bind]
  refine hx.bind fun r => ?_
  cases r with
  | ok a => exact hf a
  | error e => exact pure _

/-- What the second action comes to is what it comes to in the session before the first. -/
theorem of_result_bind_eq_ok {x : SessionM κ α} {f : α → SessionM κ β} {s : Session κ} {b : β}
    (h : (x >>= f).result s = .ok b) (hx : ctx.Repeatable x.run) (hf : ∀ a, ctx.Repeatable (f a).run) :
    ∃ a, x.result s = .ok a ∧ (f a).result s = .ok b := by
  change ((ExceptT.run (x >>= f)).run s).1 = _ at h
  rw [ExceptT.run_bind, hx.result_bind ?_ s] at h
  · change ∃ a, (x.run.run s).1 = .ok a ∧ _
    generalize (x.run.run s).1 = r at h ⊢
    cases r with
    | error e => cases h
    | ok a => exact ⟨a, rfl, h⟩
  · rintro (e | a)
    · exact pure _
    · exact hf a

theorem foldlM {f : α → β → SessionM κ α} (hf : ∀ a b, ctx.Repeatable (f a b).run) (l : List β) (a : α) :
    ctx.Repeatable (l.foldlM f a).run := by
  induction l generalizing a with
  | nil => exact pure _
  | cons b l ih => exact bind_run (hf a b) ih

/-- An action that reads the session only for what sessions agree on. -/
theorem bind_run_get {f : Session κ → SessionM κ β} (hsame : ∀ s s', ctx.Agree s s' → f s = f s')
    (hf : ∀ s, ctx.Repeatable (f s).run) : ctx.Repeatable (get >>= f : SessionM κ β).run where
  same {s s'} h := by
    rw [run_get_bind, run_get_bind, hsame s s' h]
    exact (hf s').same h
  agree s := (hf s).agree s
  faithful {s} h := (hf s).faithful h

theorem profile (c : ColumnRef) : ctx.Repeatable (ctx.profile c).run where
  same h := h.profile c
  agree := agree_column (ctx.baseColumn c)
  faithful := faithful_column (ctx.baseColumn c)

theorem probe (path : AccessPath) (range : KeyRange) : ctx.Repeatable (ctx.probe path range).run where
  same h := h.probe path range
  agree s := by
    rw [CostContext.run_probe]
    exact .of_answers rfl rfl (answer_keep fun _ h => ctx.findCount_congr h).symm
  faithful {s} h := by
    rw [CostContext.run_probe]
    exact ⟨h.columns, h.probes.keep _⟩

theorem termSelectivity (term : Expr) : ctx.Repeatable (ctx.termSelectivity term).run := by
  unfold CostContext.termSelectivity
  split
  · exact bind_run (profile _) fun _ => pure _
  · split
    · exact bind_run (profile _) fun _ => pure _
    · exact pure _
  · exact pure _

theorem selectivity (predicate : Expr) : ctx.Repeatable (ctx.selectivity predicate).run := by
  unfold CostContext.selectivity
  split
  · exact termSelectivity _
  · exact termSelectivity _
  · exact foldlM (fun _ _ => bind_run (termSelectivity _) fun _ => pure _) _ _

theorem probedRows (path : Option AccessPath) (child : Plan κ) :
    ctx.Repeatable (ctx.probedRows path child).run := by
  unfold CostContext.probedRows
  split
  · split
    · split
      · exact bind_run (probe _ _) fun _ => pure _
      · exact pure _
    · exact pure _
  · exact pure _

variable [CostNumber κ]

theorem filterCost (kind : FilterKind Expr) (child : Plan κ) (input : Cost κ) :
    ctx.Repeatable (ctx.filterCost kind child input).run := by
  cases kind with
  | select predicate path =>
    refine bind_run (probedRows path child) fun rows => ?_
    cases rows with
    | some count => exact pure _
    | none => exact bind_run (selectivity predicate) fun _ => pure _
  | sort keys path =>
    unfold CostContext.filterCost
    dsimp only
    split <;> exact pure _
  | guard _ | computed | aggregate _ => exact pure _

theorem leafCost (e : Expr) : ctx.Repeatable (ctx.leafCost e).run := by
  unfold CostContext.leafCost
  split
  · cases (ctx.catalog.rowCount _).mapError PlanError.catalog with
    | ok n => exact pure _
    | error e => exact pure _
  · exact pure _
  · exact pure _
  · exact pure _

theorem joinCost (kind : JoinKind) (left right : Plan κ) (on : Option Expr) (hints : JoinHints)
    (l r : Cost κ) : ctx.Repeatable (ctx.joinCost kind left right on hints l r).run := by
  have hcondition : ctx.Repeatable (do
      let relation := on.bind fun e => SimpleRelation.detect e left.relations right.relations
      let cost := ctx.conditionCost relation hints (hints.fact.bind (← get).statistics.fact?) l r
      if kind = .leftOuter && CostNumber.lt cost.rows l.rows then return ⟨l.rows, cost.time⟩ else return cost :
        SessionM κ (Cost κ)).run := by
    refine bind_run_get (fun s s' h => ?_) fun s => ?_
    · rw [funext h.fact?]
    · dsimp only
      split <;> exact pure _
  cases kind with
  | cartesian | rightOuter | fullOuter => exact pure _
  | inner | leftOuter => exact hcondition

end Repeatable

/-! ### Pricing -/

variable [CostNumber κ]

open CostNumber (infinity lt)

/-- What pricing makes of a filter once its input is priced. -/
def priceFilter (threshold : κ) (kind : FilterKind Expr) :
    Plan κ × Except PlanError (Cost κ) → StateM (Session κ) (Plan κ × Except PlanError (Cost κ))
  | (child, .error e) => return (.filter kind child none, .error e)
  | (child, .ok input) =>
    if lt threshold input.time then return annotate (.filter kind child none) (.ok ⟨input.rows, infinity⟩)
    else return annotate (.filter kind child none) (← (ctx.filterCost kind child input).run)

/-- What pricing makes of a join once both inputs are priced, the left one at `l`. -/
def priceJoin (threshold : κ) (kind : JoinKind) (left : Plan κ) (l : Cost κ) (on : Option Expr)
    (hints : JoinHints) :
    Plan κ × Except PlanError (Cost κ) → StateM (Session κ) (Plan κ × Except PlanError (Cost κ))
  | (right, .error e) => return (.join kind left right on hints none, .error e)
  | (right, .ok r) =>
    if lt threshold r.time then
      return annotate (.join kind left right on hints none) (.ok ⟨l.rows * r.rows, infinity⟩)
    else
      return annotate (.join kind left right on hints none)
        (← (ctx.joinCost kind left right on hints l r).run)

/-- What pricing makes of a join once its left input is priced. -/
def priceJoinLeft (threshold : κ) (kind : JoinKind) (right : Plan κ) (on : Option Expr) (hints : JoinHints) :
    Plan κ × Except PlanError (Cost κ) → StateM (Session κ) (Plan κ × Except PlanError (Cost κ))
  | (left, .error e) => return (.join kind left right on hints none, .error e)
  | (left, .ok l) =>
    if lt threshold l.time then
      return annotate (.join kind left right on hints none) (.ok ⟨l.rows, infinity⟩)
    else ctx.price threshold right >>= ctx.priceJoin threshold kind left l on hints

variable {ctx}

theorem price_filter (threshold : κ) (kind : FilterKind Expr) (child : Plan κ) :
    ctx.price threshold (.filter kind child none) =
      ctx.price threshold child >>= ctx.priceFilter threshold kind := by
  rw [price]
  congr 1
  funext ⟨child, input⟩
  cases input <;> rfl

theorem price_join (threshold : κ) (kind : JoinKind) (left right : Plan κ) (on : Option Expr)
    (hints : JoinHints) :
    ctx.price threshold (.join kind left right on hints none) =
      ctx.price threshold left >>= ctx.priceJoinLeft threshold kind right on hints := by
  rw [price]
  congr 1
  funext ⟨left, l⟩
  cases l with
  | error e => rfl
  | ok l =>
    dsimp only [priceJoinLeft]
    congr 2
    funext ⟨right, r⟩
    cases r <;> rfl

namespace Repeatable

variable (threshold : κ)

theorem priceFilter (kind : FilterKind Expr) (child : Plan κ × Except PlanError (Cost κ)) :
    ctx.Repeatable (ctx.priceFilter threshold kind child) := by
  obtain ⟨child, e | input⟩ := child
  · exact pure _
  · rw [CostContext.priceFilter]
    split
    · exact pure _
    · exact bind (filterCost _ _ _) fun _ => pure _

theorem priceJoin (kind : JoinKind) (left : Plan κ) (l : Cost κ) (on : Option Expr) (hints : JoinHints)
    (right : Plan κ × Except PlanError (Cost κ)) :
    ctx.Repeatable (ctx.priceJoin threshold kind left l on hints right) := by
  obtain ⟨right, e | r⟩ := right
  · exact pure _
  · rw [CostContext.priceJoin]
    split
    · exact pure _
    · exact bind (joinCost _ _ _ _ _ _ _) fun _ => pure _

variable {threshold}

theorem priceJoinLeft {right : Plan κ} (hright : ctx.Repeatable (ctx.price threshold right)) (kind : JoinKind)
    (on : Option Expr) (hints : JoinHints) (left : Plan κ × Except PlanError (Cost κ)) :
    ctx.Repeatable (ctx.priceJoinLeft threshold kind right on hints left) := by
  obtain ⟨left, e | l⟩ := left
  · exact pure _
  · rw [CostContext.priceJoinLeft]
    split
    · exact pure _
    · exact bind hright (priceJoin _ _ _ _ _ _)

/-- Pricing is repeatable, whatever the threshold and whatever costs the plan has already. -/
theorem price (threshold : κ) (p : Plan κ) : ctx.Repeatable (ctx.price threshold p) := by
  induction p with
  | leaf e cost =>
    cases cost with
    | some cost => exact pure _
    | none => exact bind (leafCost e) fun _ => pure _
  | filter kind child cost ih =>
    cases cost with
    | some cost => exact pure _
    | none =>
      rw [price_filter]
      exact bind ih (priceFilter threshold kind)
  | join kind left right on hints cost ihl ihr =>
    cases cost with
    | some cost => exact pure _
    | none =>
      rw [price_join]
      exact bind ihl (priceJoinLeft ihr kind on hints)

end Repeatable

end CostContext

end JoinPlanner
