import JoinPlanner.Proofs.Cost.Exact
import JoinPlanner.Proofs.Cost.Session
import JoinPlanner.Proofs.Statistics.Profile
import JoinPlanner.Proofs.Statistics.Sample
import Mathlib.Algebra.BigOperators.Group.Finset.Basic
import Mathlib.Data.Sym.Sym2

/-!
# What a fact comes to

A fact has one key for every way to write its set of equalities, but its probability is computed from the
list as it is written: the shares of points that agree are multiplied, each as often as its equality is
written. So the order of the equalities and of their sides is of no matter, and a repetition is
(`Statistics.fact?_afterFacts`). The first list to come in is the one that is kept.
-/

namespace JoinPlanner

open CostNumber (ofCount)
open scoped BigOperators

/-- The equalities that are written, each as often as it is. -/
def equalities (pairs : List (ColumnRef × ColumnRef)) : List (Sym2 ColumnRef) :=
  pairs.map fun pair => s(pair.1, pair.2)

theorem FactKey.equality_comm (l r : ColumnRef) : equality l r = equality r l := by
  unfold equality
  rw [Std.OrientedOrd.eq_swap (a := r)]
  cases h : Ord.compare l r with
  | lt => rfl
  | eq => rw [Std.LawfulEqOrd.eq_of_compare h]; rfl
  | gt => rfl

theorem FactKey.ofEqualities_congr {pairs pairs' : List (ColumnRef × ColumnRef)}
    (h : ∀ e, e ∈ equalities pairs ↔ e ∈ equalities pairs') : ofEqualities pairs = ofEqualities pairs' := by
  let text : Sym2 ColumnRef → String := Sym2.lift ⟨equality, equality_comm⟩
  have htext (pairs : List (ColumnRef × ColumnRef)) : ofEqualities pairs =
      ⟨" AND ".intercalate (SortedSet.ofList ((equalities pairs).map text)).toList⟩ := by
    rw [equalities, List.map_map]
    rfl
  have hset : SortedSet.ofList ((equalities pairs).map text) = SortedSet.ofList ((equalities pairs').map text) := by
    refine SortedSet.ext_mem fun s => ?_
    rw [SortedSet.mem_ofList, SortedSet.mem_ofList, List.mem_map, List.mem_map]
    simp only [h]
  rw [htext, htext, hset]

namespace ColumnProfile

/-- To count the pairs that are related, one may go through either side first. -/
theorem sum_countP_comm {α β : Type} (related : α → β → Bool) (as : List α) (bs : List β) :
    (as.map fun a => bs.countP (related a)).sum = (bs.map fun b => as.countP (related · b)).sum := by
  induction as with
  | nil => simp
  | cons a as ih =>
    have hfirst : (bs.map fun b => (a :: as).countP (related · b)).sum =
        bs.countP (related a) + (bs.map fun b => as.countP (related · b)).sum := by
      clear ih
      induction bs with
      | nil => rfl
      | cons b bs ihb =>
        rw [List.map_cons, List.sum_cons, ihb, List.map_cons, List.sum_cons, List.countP_cons, List.countP_cons]
        omega
    rw [List.map_cons, List.sum_cons, ih, hfirst]

theorem matchingPoints_comm (p q : ColumnProfile) : p.matchingPoints q = q.matchingPoints p := by
  have hcount (p q : ColumnProfile) : p.matchingPoints q =
      (p.points.map fun v => q.points.countP fun w => !v.isNull && v == w).sum := by
    rw [matchingPoints, List.length_flatMap]
    simp only [List.countP_eq_length_filter]
  rw [hcount, hcount, sum_countP_comm]
  refine congrArg List.sum (List.map_congr_left fun w _ => List.countP_congr fun v _ => ?_)
  -- equal values are NULL together
  rw [Bool.and_eq_true, Bool.and_eq_true, Value.beq_iff, Value.beq_iff, eq_comm (a := w.place)]
  refine and_congr_left fun h => ?_
  rw [Value.isNull_congr h]

/-- Whether a share of the pairs of points can be told: there are points, and some pair of them agrees. -/
def overlaps (p q : ColumnProfile) : Bool := p.isSampled && q.isSampled && p.matchingPoints q != 0

def share (p q : ColumnProfile) : ℚ := p.matchingPoints q / (divisionPoints * divisionPoints : ℕ)

theorem overlaps_comm (p q : ColumnProfile) : p.overlaps q = q.overlaps p := by
  rw [overlaps, overlaps, matchingPoints_comm, Bool.and_comm p.isSampled]

theorem share_comm (p q : ColumnProfile) : p.share q = q.share p := by
  rw [share, share, matchingPoints_comm]

end ColumnProfile

/-- A product of rationals whose factors may be unknown. -/
theorem foldlM_mul_share {α : Type} {step : Exact → α → Option Exact} {known : α → Bool} {share : α → ℚ}
    (hstep : ∀ (start : ℚ) a, step start a = if known a then some ((start * share a : ℚ) : Exact) else none)
    (as : List α) (start : ℚ) : as.foldlM step (start : Exact) =
      if as.all known then some ((start * (as.map share).prod : ℚ) : Exact) else none := by
  induction as generalizing start with
  | nil => simp
  | cons a as ih =>
    rw [List.foldlM_cons, hstep, List.all_cons, List.map_cons, List.prod_cons]
    cases known a with
    | false => rfl
    | true =>
      rw [← mul_assoc]
      exact ih (start * share a)

theorem factProbability_eq {pairs : List (ColumnProfile × ColumnProfile)} (h : pairs ≠ []) :
    (factProbability pairs : Option Exact) =
      if pairs.all fun pair => pair.1.overlaps pair.2 then
        some (((pairs.map fun pair => pair.1.share pair.2).prod : ℚ) : Exact)
      else none := by
  have hpoints : ((divisionPoints * divisionPoints : ℕ) : ℚ) ≠ 0 := by decide +kernel
  have hstart : (ofCount 1 : Exact) = ((1 : ℚ) : Exact) := by rw [Exact.ofCount_eq, Nat.cast_one]
  rw [factProbability, if_neg (by simpa using h), hstart]
  refine (foldlM_mul_share (fun start pair => ?_) pairs 1).trans (by rw [one_mul])
  show (if pair.1.overlaps pair.2 then _ else none) = _
  rw [Exact.ofCount_eq, Exact.ofCount_eq, Exact.coe_div _ hpoints, ← WithTop.coe_mul]
  rfl

/-! ### The value of a set of equalities -/

namespace Catalog

variable (catalog : Catalog)

/-- The profile of a column, if it can be found. -/
def profileD (c : ColumnRef) : ColumnProfile := (catalog.findProfile c).toOption.getD default

def isFound (c : ColumnRef) : Bool := (catalog.findProfile c).isOk

/-- Whether the profiles of both columns are found. -/
def isKnown : Sym2 ColumnRef → Bool :=
  Sym2.lift ⟨fun l r => catalog.isFound l && catalog.isFound r, fun _ _ => Bool.and_comm _ _⟩

def overlaps : Sym2 ColumnRef → Bool :=
  Sym2.lift ⟨fun l r => (catalog.profileD l).overlaps (catalog.profileD r), fun _ _ => ColumnProfile.overlaps_comm _ _⟩

/-- The share of the pairs of points of two columns that agree. -/
def share : Sym2 ColumnRef → ℚ :=
  Sym2.lift ⟨fun l r => (catalog.profileD l).share (catalog.profileD r), fun _ _ => ColumnProfile.share_comm _ _⟩

/-- The product of the shares, each as often as its equality is there; unknown if one of them is. -/
def factValue (es : List (Sym2 ColumnRef)) : Option Exact :=
  if es.all catalog.overlaps then some (((es.map catalog.share).prod : ℚ) : Exact) else none

variable {catalog} {es es' : List (Sym2 ColumnRef)}

theorem factValue_perm (h : es.Perm es') : catalog.factValue es = catalog.factValue es' := by
  rw [factValue, factValue, h.all_eq, (h.map catalog.share).prod_eq]

theorem all_congr_mem {α : Type} {as as' : List α} (p : α → Bool) (h : ∀ a, a ∈ as ↔ a ∈ as') : as.all p = as'.all p := by
  rw [Bool.eq_iff_iff, List.all_eq_true, List.all_eq_true]
  simp only [h]

theorem eq_of_factValue {p : Exact} (h : catalog.factValue es = some p) : p = ((es.map catalog.share).prod : ℚ) := by
  unfold factValue at h
  split at h <;> cases h
  rfl

theorem isSome_factValue : (catalog.factValue es).isSome = es.all catalog.overlaps := by
  rw [factValue]
  cases es.all catalog.overlaps <;> rfl

/-- The profiles of both columns of an equality. -/
def findPair (catalog : Catalog) (pair : ColumnRef × ColumnRef) :
    Except PlanError (ColumnProfile × ColumnProfile) := do
  return (← catalog.findProfile pair.1, ← catalog.findProfile pair.2)

/-- What a fact comes to where it was not found before. -/
def findFact (catalog : Catalog) (pairs : List (ColumnRef × ColumnRef)) : Except PlanError (Option Exact) := do
  return factProbability (← pairs.mapM catalog.findPair)

theorem findPair_cases (pair : ColumnRef × ColumnRef) :
    (catalog.isKnown s(pair.1, pair.2) = true ∧
      catalog.findPair pair = .ok (catalog.profileD pair.1, catalog.profileD pair.2)) ∨
    (catalog.isKnown s(pair.1, pair.2) = false ∧ ∃ e, catalog.findPair pair = .error e) := by
  show (catalog.isFound pair.1 && catalog.isFound pair.2) = true ∧ _ ∨
    (catalog.isFound pair.1 && catalog.isFound pair.2) = false ∧ _
  unfold isFound findPair profileD
  rcases catalog.findProfile pair.1 with e | p
  · exact .inr ⟨rfl, e, rfl⟩
  · rcases catalog.findProfile pair.2 with e | q
    · exact .inr ⟨rfl, e, rfl⟩
    · exact .inl ⟨rfl, rfl⟩

theorem mapM_findPair_cases (pairs : List (ColumnRef × ColumnRef)) :
    ((equalities pairs).all catalog.isKnown = true ∧ pairs.mapM catalog.findPair =
      .ok (pairs.map fun pair => (catalog.profileD pair.1, catalog.profileD pair.2))) ∨
    ((equalities pairs).all catalog.isKnown = false ∧ ∃ e, pairs.mapM catalog.findPair = .error e) := by
  induction pairs with
  | nil => exact .inl ⟨rfl, rfl⟩
  | cons pair pairs ih =>
    rw [List.mapM_cons, equalities, List.map_cons, List.all_cons]
    rcases catalog.findPair_cases pair with ⟨hknown, hpair⟩ | ⟨hknown, e, hpair⟩ <;> rw [hknown, hpair]
    · rcases ih with ⟨hrest, hpairs⟩ | ⟨hrest, e, hpairs⟩ <;> rw [hpairs]
      · exact .inl ⟨hrest, rfl⟩
      · exact .inr ⟨hrest, e, rfl⟩
    · exact .inr ⟨rfl, e, rfl⟩

/-- A fact is found if all its columns are; its value then depends on its equalities alone. -/
theorem findFact_cases {pairs : List (ColumnRef × ColumnRef)} (hne : pairs ≠ []) :
    ((equalities pairs).all catalog.isKnown = true ∧
      catalog.findFact pairs = .ok (catalog.factValue (equalities pairs))) ∨
    ((equalities pairs).all catalog.isKnown = false ∧ ∃ e, catalog.findFact pairs = .error e) := by
  unfold findFact
  rcases catalog.mapM_findPair_cases pairs with ⟨hknown, hpairs⟩ | ⟨hknown, e, hpairs⟩ <;> rw [hpairs]
  · refine .inl ⟨hknown, congrArg Except.ok ?_⟩
    rw [factProbability_eq (by simpa using hne), factValue, equalities, List.all_map, List.all_map, List.map_map,
      List.map_map]
    rfl
  · exact .inr ⟨hknown, e, rfl⟩

theorem findFact_together {pairs pairs' : List (ColumnRef × ColumnRef)} (hne : pairs ≠ [])
    (hne' : pairs' ≠ []) (hsame : ∀ e, e ∈ equalities pairs' ↔ e ∈ equalities pairs) :
    catalog.findFact pairs = .ok (catalog.factValue (equalities pairs)) ∧
      catalog.findFact pairs' = .ok (catalog.factValue (equalities pairs')) ∨
    ∃ e e', catalog.findFact pairs = .error e ∧ catalog.findFact pairs' = .error e' := by
  have hknown : (equalities pairs').all catalog.isKnown = (equalities pairs).all catalog.isKnown :=
    all_congr_mem _ hsame
  rcases catalog.findFact_cases hne with ⟨h, hfound⟩ | ⟨h, e, hfound⟩ <;>
    rcases catalog.findFact_cases hne' with ⟨h', hfound'⟩ | ⟨h', e', hfound'⟩
  · exact .inl ⟨hfound, hfound'⟩
  · rw [hknown, h] at h'
    cases h'
  · rw [hknown, h] at h'
    cases h'
  · exact .inr ⟨e, e', hfound, hfound'⟩

end Catalog

/-! ### The store -/

namespace Statistics

variable {catalog : Catalog} {s : Statistics Exact}

/-- The columns of the store are those of the catalog. -/
def Faithful (catalog : Catalog) (s : Statistics Exact) : Prop :=
  answer s.columns catalog.findProfile = catalog.findProfile

end Statistics

namespace StatisticsM

variable {catalog : Catalog} {α β : Type}

/-- The action comes to what the catalog has, and finds no facts. -/
def Reads (catalog : Catalog) (x : StatisticsM Exact α) (r : Except PlanError α) : Prop :=
  ∀ s : Statistics Exact, s.Faithful catalog →
    ∃ s', x.run.run s = (r, s') ∧ s'.Faithful catalog ∧ s'.facts = s.facts

theorem Reads.pure (a : α) : Reads catalog (Pure.pure a) (.ok a) := fun s hs => ⟨s, rfl, hs, rfl⟩

theorem Reads.bind {x : StatisticsM Exact α} {r : Except PlanError α} {f : α → StatisticsM Exact β}
    {g : α → Except PlanError β} (hx : Reads catalog x r) (hf : ∀ a, Reads catalog (f a) (g a)) :
    Reads catalog (x >>= f) (r >>= g) := by
  intro s hs
  obtain ⟨s₁, hrun, hs₁, hfacts⟩ := hx s hs
  rw [ExceptT.run_bind, StateT.run_bind, hrun]
  cases r with
  | error e => exact ⟨s₁, rfl, hs₁, hfacts⟩
  | ok a =>
    obtain ⟨s₂, hrun', hs₂, hfacts'⟩ := hf a s₁ hs₁
    exact ⟨s₂, hrun', hs₂, hfacts'.trans hfacts⟩

theorem Reads.mapM {f : α → StatisticsM Exact β} {g : α → Except PlanError β}
    (hf : ∀ a, Reads catalog (f a) (g a)) (as : List α) : Reads catalog (as.mapM f) (as.mapM g) := by
  induction as with
  | nil => exact .pure _
  | cons a as ih =>
    rw [List.mapM_cons, List.mapM_cons]
    exact (hf a).bind fun _ => ih.bind fun _ => .pure _

theorem Reads.column (c : ColumnRef) : Reads catalog (Statistics.column catalog c) (catalog.findProfile c) := by
  intro s hs
  refine ⟨_, (Statistics.run_column catalog c s).trans (congrArg (·, _) (congrFun hs c)), ?_, rfl⟩
  exact (answer_keep fun a h => by rw [eq_of_beq h]).trans hs

end StatisticsM

namespace Statistics

variable {catalog : Catalog} {s : Statistics Exact} {pairs : List (ColumnRef × ColumnRef)} {key : FactKey}

theorem run_populateFact_of_known {known : Option Exact} (h : s.facts.lookup key = some known) :
    (populateFact catalog key pairs).run.run s = (.ok known, s) := by
  rw [populateFact, run_get_bind, h]
  rfl

/-- A fact that was not found before is found, and kept unless that fails. -/
theorem run_populateFact (pairs : List (ColumnRef × ColumnRef)) (hs : s.Faithful catalog)
    (h : s.facts.lookup key = none) :
    ∃ s', (populateFact catalog key pairs).run.run s = (catalog.findFact pairs, s') ∧ s'.Faithful catalog ∧
      s'.facts.lookup key = (catalog.findFact pairs).toOption := by
  have hpair (pair : ColumnRef × ColumnRef) : StatisticsM.Reads catalog
      (do return (← column catalog pair.1, ← column catalog pair.2)) (catalog.findPair pair) :=
    .bind (.column _) fun _ => .bind (.column _) fun _ => .pure _
  obtain ⟨s₁, hrun, hs₁, hfacts⟩ := StatisticsM.Reads.mapM hpair pairs s hs
  rw [populateFact, run_get_bind, h]
  dsimp only
  rw [ExceptT.run_bind, StateT.run_bind, hrun, Catalog.findFact]
  rcases pairs.mapM catalog.findPair with e | profiles
  · exact ⟨s₁, rfl, hs₁, by rw [hfacts]; exact h⟩
  · exact ⟨{ s₁ with facts := (key, factProbability profiles) :: s₁.facts }, rfl, hs₁, List.lookup_cons_self⟩

/-- One call for each list, whether or not it comes to an error. -/
def afterFacts (catalog : Catalog) (s : Statistics Exact) (calls : List (List (ColumnRef × ColumnRef))) :
    Statistics Exact :=
  calls.foldl (fun s pairs => ((populateFact catalog (.ofEqualities pairs) pairs).run.run s).2) s

theorem afterFacts_of_known {known : Option Exact} (h : s.facts.lookup key = some known)
    {calls : List (List (ColumnRef × ColumnRef))} (hcalls : ∀ call ∈ calls, FactKey.ofEqualities call = key) :
    afterFacts catalog s calls = s := by
  induction calls with
  | nil => rfl
  | cons call calls ih =>
    obtain ⟨rfl, hcalls⟩ := List.forall_mem_cons.1 hcalls
    rw [afterFacts, List.foldl_cons, run_populateFact_of_known h]
    exact ih hcalls

theorem equalities_ne_nil {pairs' : List (ColumnRef × ColumnRef)} (hne : pairs ≠ [])
    (hsame : ∀ e, e ∈ equalities pairs' ↔ e ∈ equalities pairs) : pairs' ≠ [] := by
  obtain ⟨pair, hpair⟩ := List.exists_mem_of_ne_nil pairs hne
  rintro rfl
  exact List.not_mem_nil ((hsame _).2 (List.mem_map_of_mem hpair))

/-- Of calls for one set of equalities the first leaves its value; if it fails, so do all. -/
theorem lookup_afterFacts (hs : s.Faithful catalog) (hcold : s.facts.lookup (.ofEqualities pairs) = none)
    (hne : pairs ≠ []) (calls : List (List (ColumnRef × ColumnRef)))
    (hcalls : ∀ call ∈ calls, ∀ e, e ∈ equalities call ↔ e ∈ equalities pairs) :
    (afterFacts catalog s (pairs :: calls)).facts.lookup (.ofEqualities pairs) =
      (catalog.findFact pairs).toOption := by
  induction calls generalizing s pairs with
  | nil =>
    obtain ⟨s', hrun, -, hlookup⟩ := run_populateFact pairs hs hcold
    rwa [afterFacts, List.foldl_cons, hrun]
  | cons call calls ih =>
    obtain ⟨s', hrun, hs', hlookup⟩ := run_populateFact pairs hs hcold
    have hafter : afterFacts catalog s (pairs :: call :: calls) = afterFacts catalog s' (call :: calls) := by
      rw [afterFacts, List.foldl_cons, hrun]
      rfl
    have hkey : ∀ call' ∈ call :: calls, FactKey.ofEqualities call' = .ofEqualities pairs := fun call' hcall =>
      FactKey.ofEqualities_congr (hcalls call' hcall)
    obtain ⟨hcall, hcalls⟩ := List.forall_mem_cons.1 hcalls
    rw [hafter]
    have hne' := equalities_ne_nil hne hcall
    rcases catalog.findFact_together hne hne' hcall with ⟨hfound, -⟩ | ⟨e, e', hfound, hfound'⟩ <;>
      rw [hfound] at hlookup ⊢
    · rw [afterFacts_of_known hlookup hkey, hlookup]
    · -- the next list has the same columns, so that it fails as well
      have hrest : ∀ call' ∈ calls, ∀ e, e ∈ equalities call' ↔ e ∈ equalities call :=
        fun call' hcall' e => (hcalls call' hcall' e).trans (hcall e).symm
      rw [← hkey call List.mem_cons_self] at hlookup ⊢
      rw [ih hs' hlookup hne' hrest, hfound']
      rfl

/-- A set of equalities has one key, and whether its value is found and known does not depend on how it is
written; nor does the value depend on the order of the equalities and of their sides. It does depend on how
often each is written, and is for every sequence of calls that of the first list. -/
theorem fact?_afterFacts {pairs' : List (ColumnRef × ColumnRef)} (hs : s.Faithful catalog)
    (hcold : s.facts.lookup (.ofEqualities pairs) = none) (hne : pairs ≠ [])
    (hsame : ∀ e, e ∈ equalities pairs' ↔ e ∈ equalities pairs) :
    let found (pairs : List (ColumnRef × ColumnRef)) :=
      ((populateFact catalog (.ofEqualities pairs) pairs).run.run s).1
    FactKey.ofEqualities pairs' = .ofEqualities pairs ∧
    (found pairs = .ok (catalog.factValue (equalities pairs)) ∧
        found pairs' = .ok (catalog.factValue (equalities pairs')) ∨
      ∃ e e', found pairs = .error e ∧ found pairs' = .error e') ∧
    (catalog.factValue (equalities pairs')).isSome = (catalog.factValue (equalities pairs)).isSome ∧
    (∀ p, catalog.factValue (equalities pairs') = some p → p =
      (∏ e ∈ (equalities pairs).toFinset, catalog.share e ^ (equalities pairs').count e : ℚ)) ∧
    ((equalities pairs').Perm (equalities pairs) → (found pairs').toOption = (found pairs).toOption) ∧
    ∀ calls : List (List (ColumnRef × ColumnRef)),
      (∀ call ∈ calls, ∀ e, e ∈ equalities call ↔ e ∈ equalities pairs) →
        (afterFacts catalog s (pairs :: calls)).fact? (.ofEqualities pairs) = (found pairs).toOption.join := by
  intro found
  have hkey : FactKey.ofEqualities pairs' = .ofEqualities pairs := FactKey.ofEqualities_congr hsame
  have hne' := equalities_ne_nil hne hsame
  have hfound : found pairs = catalog.findFact pairs := by
    obtain ⟨s', hrun, -⟩ := run_populateFact pairs hs hcold
    exact congrArg Prod.fst hrun
  have hfound' : found pairs' = catalog.findFact pairs' := by
    obtain ⟨s', hrun, -⟩ := run_populateFact pairs' hs (hkey ▸ hcold)
    exact congrArg Prod.fst hrun
  have htogether := catalog.findFact_together hne hne' hsame
  rw [hfound, hfound']
  refine ⟨hkey, htogether, ?_, fun p hp => ?_, fun hperm => ?_, fun calls hcalls => ?_⟩
  · rw [Catalog.isSome_factValue, Catalog.isSome_factValue, Catalog.all_congr_mem _ hsame]
  · have hset : (equalities pairs').toFinset = (equalities pairs).toFinset := by
      ext e
      rw [List.mem_toFinset, List.mem_toFinset, hsame]
    rw [← hset, ← Finset.prod_list_map_count]
    exact Catalog.eq_of_factValue hp
  · rcases htogether with ⟨hok, hok'⟩ | ⟨e, e', herror, herror'⟩
    · rw [hok, hok', Catalog.factValue_perm hperm]
    · rw [herror, herror']
      rfl
  · rw [fact?, lookup_afterFacts hs hcold hne calls hcalls]

/-- A table of 64 rows, both columns of which count them. -/
def counted : Table :=
  { columns := ["x", "y"], rows := ⟨(List.range 64).map fun i => [.int (.ofNat i), .int (.ofNat i)]⟩ }

/-- Every second row is sampled, and these are in order. -/
theorem findProfile_counted {column : String} (hcolumn : column = "x" ∨ column = "y") :
    Catalog.findProfile ⟨[(⟨none, "t"⟩, counted)]⟩ ⟨⟨none, "t"⟩, column⟩ =
      .ok ⟨64, 32, (List.range 32).map fun i => .int (.ofNat (2 * i))⟩ := by
  obtain ⟨position, hposition, hlt⟩ : ∃ position, counted.position ⟨none, "t"⟩ column = .ok position ∧ position < 2 := by
    rcases hcolumn with rfl | rfl
    · exact ⟨0, rfl, by decide⟩
    · exact ⟨1, rfl, by decide⟩
  have hvalues : (ColumnProfile.samplePositions 64 32).map (counted.value · position) =
      (List.range 32).map fun i => Value.int (.ofNat (2 * i)) := by
    rcases Nat.lt_succ_iff_lt_or_eq.1 hlt with hlt | rfl
    · obtain rfl : position = 0 := by omega
      rfl
    · rfl
  have hsorted : ((List.range 32).map fun i => Value.int (.ofNat (2 * i))).Pairwise
      fun v w => (Ord.compare v w != .gt) = true := by decide +kernel
  have htable : Catalog.table ⟨[(⟨none, "t"⟩, counted)]⟩ ⟨none, "t"⟩ = .ok counted := by
    rw [Catalog.table, List.lookup_cons_self]
  rw [Catalog.findProfile, ColumnProfile.sample, ColumnProfile.sampleInBatches_eq htable hposition (by decide)]
  change Except.ok (ColumnProfile.mk 64 32 (ColumnProfile.pointsOf (List.mergeSort
    ((ColumnProfile.samplePositions 64 32).map (counted.value · position)) _).toArray)) = _
  rw [hvalues, List.mergeSort_of_pairwise hsorted]
  rfl

/-- An equality and its repetition: one key, and the square of the value. -/
theorem fact?_afterFacts_repeated :
    let catalog : Catalog := ⟨[(⟨none, "t"⟩, counted)]⟩
    let pair : ColumnRef × ColumnRef := (⟨⟨none, "t"⟩, "x"⟩, ⟨⟨none, "t"⟩, "y"⟩)
    (afterFacts catalog {} [[pair], [pair.swap, pair]]).fact? (.ofEqualities [pair]) = some ((1 / 32 : ℚ) : Exact) ∧
    (afterFacts catalog {} [[pair.swap, pair], [pair]]).fact? (.ofEqualities [pair]) =
      some ((1 / 1024 : ℚ) : Exact) := by
  intro catalog pair
  have hsame : ∀ e, e ∈ equalities [pair.swap, pair] ↔ e ∈ equalities [pair] := by
    simp [equalities, Sym2.eq_swap]
  have hempty : Statistics.Faithful catalog {} := rfl
  have hcold (key : FactKey) : ({} : Statistics Exact).facts.lookup key = none := rfl
  obtain ⟨-, -, -, -, -, honce⟩ := fact?_afterFacts hempty (hcold _) (by simp) hsame
  obtain ⟨hkey, -, -, -, -, htwice⟩ := fact?_afterFacts hempty (hcold _) (by simp) fun e => (hsame e).symm
  have hx : catalog.findProfile pair.1 = _ := findProfile_counted (.inl rfl)
  have hy : catalog.findProfile pair.2 = _ := findProfile_counted (.inr rfl)
  have hfound (pairs : List (ColumnRef × ColumnRef)) {value : Option Exact}
      (h : catalog.findFact pairs = .ok value) :
      ((populateFact catalog (.ofEqualities pairs) pairs).run.run {}).1.toOption.join = value := by
    obtain ⟨s', hrun, -⟩ := run_populateFact pairs hempty rfl
    rw [hrun, h]
    rfl
  constructor
  · rw [honce [[pair.swap, pair]] (List.forall_mem_singleton.2 hsame)]
    refine hfound _ ?_
    simp only [Catalog.findFact, Catalog.findPair, List.mapM_cons, List.mapM_nil, hx, hy]
    exact congrArg Except.ok (by decide +kernel)
  · rw [hkey, htwice [[pair]] (List.forall_mem_singleton.2 fun e => (hsame e).symm)]
    refine hfound _ ?_
    simp only [Catalog.findFact, Catalog.findPair, List.mapM_cons, List.mapM_nil, Prod.fst_swap, Prod.snd_swap, hx, hy]
    exact congrArg Except.ok (by decide +kernel)

end Statistics

end JoinPlanner
