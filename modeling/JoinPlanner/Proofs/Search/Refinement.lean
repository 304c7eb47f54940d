import JoinPlanner.Proofs.Search.Survival
import Mathlib

/-!
# The steps of the refinement

The refinement as a machine (`Search.refineStep`): it is between the visits of two ranks, or at the entry of a rank
with some tries left (`Refinement`). What a step may lead to, whatever is drawn and whatever it costs, is
`Refinement.Step`. A try takes one of the steps that the configuration allows and may move the entry to the next rank,
and a cut takes a rank; so the ranks and the steps left, the latter counted once more, go down until nothing is left
to do (`Refinement.work`), and the refinement is the run of the machine to its end.

At every step the beam is in order, its costs are finite, its entries differ and their orders are complete
(`Beam.WellFormed`), and the rank that is visited has the entry that the visit began with (`Refinement.Sound`).
-/

namespace JoinPlanner

open CostNumber (ofCount le isFinite)

variable {κ σ : Type}

section Beam

variable [CostNumber κ]

/-- The beam is sorted by cost and seed, its costs are finite, no two entries share a seed together with a cost or an
order, and every order has all predicates. -/
structure Beam.WellFormed (predicates : Nat) (beam : List (Candidate κ)) : Prop where
  sorted : beam.Pairwise Candidate.Before
  finite : ∀ b ∈ beam, isFinite b.cost = true
  distinct : beam.Pairwise fun a b =>
    ¬ (a.seed = b.seed ∧ ((le a.cost b.cost = true ∧ le b.cost a.cost = true) ∨ a.order = b.order))
  orders : Beam.HasOrders predicates beam

namespace Beam.WellFormed

variable {predicates : Nat} {beam beam' : List (Candidate κ)} {c : Candidate κ} {place : Nat}

theorem nil : WellFormed predicates ([] : List (Candidate κ)) :=
  ⟨.nil, fun _ h => absurd h List.not_mem_nil, .nil, fun _ h => absurd h List.not_mem_nil⟩

theorem take (h : WellFormed predicates beam) (n : Nat) : WellFormed predicates (beam.take n) where
  sorted := h.sorted.sublist (List.take_sublist ..)
  finite b hb := h.finite b (List.mem_of_mem_take hb)
  distinct := h.distinct.sublist (List.take_sublist ..)
  orders b hb := h.orders b (List.mem_of_mem_take hb)

variable [LawfulCostNumber κ]

theorem isNumber (h : WellFormed predicates beam) : ∀ b ∈ beam, CostNumber.isNumber b.cost = true := fun b hb =>
  LawfulCostNumber.isNumber_of_isFinite (h.finite b hb)

theorem insertInto (h : WellFormed predicates beam) (hperm : c.order.Perm (List.range predicates))
    (hinsert : c.insertInto beam = some (place, beam')) : WellFormed predicates beam' := by
  obtain ⟨hfinite, hnew, -⟩ := Candidate.insertInto_eq_some.1 hinsert
  have hbeam := Candidate.perm_of_insertInto hinsert
  refine ⟨Candidate.sorted_insertInto h.sorted h.isNumber hinsert, fun b hb => ?_, ?_, fun b hb => ?_⟩
  · rcases List.mem_cons.1 (hbeam.mem_iff.1 hb) with rfl | hb
    · exact hfinite
    · exact h.finite b hb
  · -- to share a seed with a cost or an order is symmetric, so the place does not matter
    refine (hbeam.pairwise_iff ?_).2 (List.pairwise_cons.2 ⟨fun b hb ⟨hseed, hshared⟩ => ?_, h.distinct⟩)
    · rintro a b hab ⟨hseed, hshared⟩
      exact hab ⟨hseed.symm, hshared.imp And.symm Eq.symm⟩
    · have hdup := Candidate.isDuplicate_iff.2 ⟨hseed.symm, hshared.imp And.symm Eq.symm⟩
      rw [hnew b hb] at hdup
      cases hdup
  · rcases List.mem_cons.1 (hbeam.mem_iff.1 hb) with rfl | hb
    · exact hperm
    · exact h.orders b hb

end Beam.WellFormed

variable [LawfulCostNumber κ] {predicates rank : Nat} {base c : Candidate κ} {s : SearchState κ}

/-- A perturbation of the entry at a rank leaves the entry at the rank it gives, and counts no more improvements than
steps. -/
theorem SearchState.afterPerturbation_wellFormed (h : Beam.WellFormed predicates s.beam)
    (hbase : s.beam[rank]? = some base) (hperm : c.order.Perm (List.range predicates)) :
    Beam.WellFormed predicates (s.afterPerturbation base rank c).2.beam ∧
    (s.afterPerturbation base rank c).2.beam[(s.afterPerturbation base rank c).1]? = some base ∧
    (s.afterPerturbation base rank c).2.stats.improvements ≤ s.stats.improvements + 1 := by
  unfold afterPerturbation
  dsimp only
  split
  · exact ⟨h, hbase, Nat.le_succ _⟩
  · next hbetter =>
    cases hinsert : c.insertInto s.beam with
    | none => exact ⟨h, hbase, Nat.le_succ _⟩
    | some inserted =>
      have hnumber := h.isNumber base (List.mem_of_getElem? hbase)
      have hcnumber := LawfulCostNumber.isNumber_of_isFinite (Candidate.insertInto_eq_some.1 hinsert).1
      have hbefore : c.Before base :=
        ⟨(LawfulCostNumber.le_total hcnumber hnumber).resolve_right hbetter, fun hle => absurd hle hbetter⟩
      have hplace := Candidate.place_le_of_before hinsert hbase hnumber hbefore
      refine ⟨h.insertInto hperm hinsert, ?_, le_rfl⟩
      dsimp only
      rw [if_pos hplace, Candidate.getElem?_of_insertInto hinsert hplace, hbase]

/-- After some trials: the beam is well-formed, and no step of the refinement is counted. -/
structure SearchState.Seeded (predicates : Nat) (s : SearchState κ) : Prop where
  wellFormed : Beam.WellFormed predicates s.beam
  refinements : s.stats.refinements = 0
  improvements : s.stats.improvements = 0

theorem SearchState.Seeded.afterTrial {m : Type → Type} {search : Search κ m} (h : s.Seeded predicates)
    (hperm : c.order.Perm (List.range predicates)) : (search.afterTrial s c).Seeded predicates := by
  obtain ⟨hbeam, hrefinements, himprovements⟩ := h
  unfold Search.afterTrial
  dsimp only
  split
  · exact ⟨hbeam, hrefinements, himprovements⟩
  · cases hinsert : c.insertInto s.beam with
    | none => exact ⟨hbeam, hrefinements, himprovements⟩
    | some inserted => exact ⟨(hbeam.insertInto hperm hinsert).take _, hrefinements, himprovements⟩

end Beam

/-! ### The machine -/

/-- A point of the refinement: between two visits with the ranks below `rank` to come, or at a rank with some tries
left, in a visit that began with `entry`. -/
inductive Refinement (κ : Type) where
  | between (rank : Nat) (s : SearchState κ)
  | visiting (entry : Candidate κ) (tries rank : Nat) (s : SearchState κ)

namespace Refinement

def rank : Refinement κ → Nat
  | between rank _ => rank
  | visiting _ _ rank _ => rank

def state : Refinement κ → SearchState κ
  | between _ s => s
  | visiting _ _ _ s => s

/-- The steps that the configuration still allows. -/
def left (config : SearchConfig) (p : Refinement κ) : Nat := config.maxRefinementSteps - p.state.stats.refinements

/-- There are no ranks left, or no steps. -/
def Ended (config : SearchConfig) : Refinement κ → Prop
  | between rank s => rank = 0 ∨ config.maxRefinementSteps ≤ s.stats.refinements
  | visiting .. => False

/-- The end of a visit, where the beam is cut. -/
def leave (config : SearchConfig) (rank : Nat) (s : SearchState κ) : Refinement κ :=
  between rank { s with beam := s.beam.take (max rank config.minBeam) }

/-- A bound of the visits to come, which no try raises: it may move the entry to the next rank, but takes a step. -/
def reach (config : SearchConfig) (p : Refinement κ) : Nat := p.rank + p.left config

/-- It goes down with every step: a visit takes a rank from the reach, a try takes one of the steps left. -/
def work (config : SearchConfig) : Refinement κ → Nat
  | p@(between ..) => 2 * p.reach config + p.left config
  | p@(visiting ..) => 2 * p.reach config + p.left config + 1

/-- What a step may lead to, whatever is drawn and whatever it costs. -/
inductive Step [CostNumber κ] (config : SearchConfig) : Refinement κ → Refinement κ → Prop where
  | stay {p} : p.Ended config → Step config p p
  | enter {entry tries rank s} : s.stats.refinements < config.maxRefinementSteps → s.beam[rank]? = some entry →
      Step config (between (rank + 1) s) (visiting entry tries rank s)
  | skip {rank s} : s.stats.refinements < config.maxRefinementSteps → s.beam[rank]? = none →
      Step config (between (rank + 1) s) (leave config rank s)
  | leave {entry tries rank s} : Step config (visiting entry tries rank s) (leave config rank s)
  | perturb {entry tries rank s base c} : s.stats.refinements < config.maxRefinementSteps →
      s.beam[rank]? = some base → c.order.Perm base.order →
      Step config (visiting entry (tries + 1) rank s)
        (visiting entry tries (s.afterPerturbation base rank c).1 (s.afterPerturbation base rank c).2)

/-- The ranks to come have entries; the rank that is visited has the entry that the visit began with. -/
def InBounds : Refinement κ → Prop
  | between rank s => rank ≤ s.beam.length
  | visiting entry _ rank s => s.beam[rank]? = some entry

/-- What holds at every point of a refinement. -/
structure Sound [CostNumber κ] (config : SearchConfig) (predicates : Nat) (p : Refinement κ) : Prop where
  wellFormed : Beam.WellFormed predicates p.state.beam
  refinements_le : p.state.stats.refinements ≤ config.maxRefinementSteps
  improvements_le : p.state.stats.improvements ≤ p.state.stats.refinements
  inBounds : p.InBounds

variable {config : SearchConfig} {predicates : Nat} {p q : Refinement κ}

theorem ended_of_work_eq_zero (h : p.work config = 0) : p.Ended config := by
  cases p with
  | visiting => exact absurd h (Nat.succ_ne_zero _)
  | between rank s =>
    simp only [work, reach, Refinement.rank, left, state] at h
    exact .inl (by omega)

namespace Step

variable [CostNumber κ]

theorem reach_le (h : Step config p q) : q.reach config ≤ p.reach config := by
  cases h with
  | stay | enter _ _ | skip _ _ | leave =>
    simp only [Refinement.leave, reach, rank, left, state]
    omega
  | @perturb _ _ rank s base c hsteps _ _ =>
    have hcount := s.refinements_afterPerturbation base c rank
    have hrank := s.rank_afterPerturbation_le base c rank
    simp only [reach, Refinement.rank, left, state]
    omega

theorem work_lt (h : Step config p q) (hp : ¬ p.Ended config) : q.work config < p.work config := by
  have hreach := h.reach_le
  cases h with
  | stay hend => exact absurd hend hp
  | enter _ _ | skip _ _ | leave =>
    simp only [Refinement.leave, work, reach, rank, left, state]
    omega
  | @perturb _ _ rank s base c hsteps _ _ =>
    have hcount := s.refinements_afterPerturbation base c rank
    simp only [work, left, state]
    omega

/-- A visit takes a rank from the reach. -/
theorem reach_lt {rank : Nat} {s : SearchState κ} (h : Step config (between rank s) q)
    (hp : ¬ (between rank s).Ended config) : q.reach config < (between rank s).reach config := by
  cases h with
  | stay hend => exact absurd hend hp
  | enter _ _ | skip _ _ =>
    simp only [Refinement.leave, reach, Refinement.rank, left, state]
    omega

theorem keeps {entry : Candidate κ} {tries rank : Nat} {s : SearchState κ}
    (h : Step config (visiting entry tries rank s) q) :
    ∃ rank' s', q = between rank' s' ∨ ∃ tries' < tries, q = visiting entry tries' rank' s' := by
  cases h with
  | stay hend => exact hend.elim
  | leave => exact ⟨_, _, .inl rfl⟩
  | perturb _ _ _ => exact ⟨_, _, .inr ⟨_, Nat.lt_succ_self _, rfl⟩⟩

theorem sound [LawfulCostNumber κ] (h : Step config p q) (hp : p.Sound config predicates) :
    q.Sound config predicates := by
  obtain ⟨hbeam, hrefinements, himprovements, hbounds⟩ := hp
  cases h with
  | stay => exact ⟨hbeam, hrefinements, himprovements, hbounds⟩
  | enter _ hentry => exact ⟨hbeam, hrefinements, himprovements, hentry⟩
  | skip _ hnone =>
    -- the rank below one that is left has an entry
    have hrank := List.getElem?_eq_none_iff.1 hnone
    exact absurd hbounds (Nat.not_le_of_lt (Nat.lt_succ_of_le hrank))
  | @leave _ _ rank s =>
    obtain ⟨hlt, -⟩ := List.getElem?_eq_some_iff.1 hbounds
    refine ⟨hbeam.take _, hrefinements, himprovements, ?_⟩
    show rank ≤ (s.beam.take _).length
    rw [List.length_take]
    omega
  | @perturb _ _ rank s base c hsteps hbase hperm =>
    obtain rfl := Option.some.inj (hbase.symm.trans hbounds)
    have hperm' := hperm.trans (hbeam.orders base (List.mem_of_getElem? hbase))
    obtain ⟨hbeam', hbase', himprovements'⟩ := SearchState.afterPerturbation_wellFormed hbeam hbase hperm'
    have hcount := s.refinements_afterPerturbation base c rank
    refine ⟨hbeam', ?_, ?_, hbase'⟩
    · show (s.afterPerturbation base rank c).2.stats.refinements ≤ _
      omega
    · show (s.afterPerturbation base rank c).2.stats.improvements ≤
        (s.afterPerturbation base rank c).2.stats.refinements
      rw [hcount]
      exact himprovements'.trans (Nat.succ_le_succ himprovements)

end Step

end Refinement

/-! ### The machine and the refinement -/

section Results

variable {α β γ : Type} {m : Type → Type} [Monad m] [LawfulMonad m]

/-- What comes after an action matters on its results only. -/
theorem bind_congr_of_satisfiesM {P : α → Prop} {x : m α} {f g : α → m β} (hx : SatisfiesM P x)
    (h : ∀ a, P a → f a = g a) : x >>= f = x >>= g := by
  obtain ⟨y, rfl⟩ := hx
  rw [bind_map_left, bind_map_left]
  exact bind_congr fun a => h a.1 a.2

/-- What holds of all that may be drawn and of all answers holds of the results. -/
theorem satisfiesM_drawn {P : γ → Prop} {drawn : Draw σ α} {x : α → m β} {g : α → β → γ}
    (h : ∀ source b, P (g (drawn.run source).1 b)) :
    SatisfiesM P (do let a ← draw drawn; let b ← x a; return g a b : StateT σ m γ) := by
  refine SatisfiesM_StateT_eq.2 fun source => ?_
  rw [run_draw_bind, run_lift_bind_pure, bind_map_left]
  exact SatisfiesM.trivial.bind fun b _ => .pure (h source b)

end Results

namespace Search

variable [CostNumber κ] [RandomSource σ] {m : Type → Type} [Monad m] (search : Search κ m)

/-- One step of the refinement; none is left to make once it has ended. -/
def refineStep : Refinement κ → SearchM σ m (Refinement κ)
  | .between 0 s => return .between 0 s
  | .between (rank + 1) s =>
    if s.stats.refinements ≥ search.config.maxRefinementSteps then return .between (rank + 1) s
    else
      match s.beam[rank]? with
      | some entry => return .visiting entry (search.triesAt rank) rank s
      | none => return .leave search.config rank s
  | .visiting _ 0 rank s => return .leave search.config rank s
  | .visiting entry (tries + 1) rank s =>
    if s.stats.refinements ≥ search.config.maxRefinementSteps then return .leave search.config rank s
    else
      match s.beam[rank]? with
      | some base => do
        let (rank, s) ← search.perturb base rank s
        return .visiting entry tries rank s
      | none => return .leave search.config rank s

def refineSteps : (n : Nat) → Refinement κ → SearchM σ m (Refinement κ)
  | 0, p => return p
  | n + 1, p => do refineSteps n (← search.refineStep p)

/-- The rest of the refinement from a point of it, with a bound of the visits to come. -/
def refineFrom (visits : Nat) : Refinement κ → SearchM σ m (SearchState κ)
  | .between rank s => search.refineBelow visits rank s
  | .visiting _ tries rank s => do
    let (rank, s) ← search.refineEntry tries rank s
    search.refineBelow visits rank { s with beam := s.beam.take (max rank search.config.minBeam) }

variable {search} {predicates : Nat} {p : Refinement κ} {s : SearchState κ} {tries rank : Nat}

theorem refineEntry_of_max_le (h : search.config.maxRefinementSteps ≤ s.stats.refinements) :
    search.refineEntry (σ := σ) tries rank s = pure (rank, s) := by
  cases tries with
  | zero => rfl
  | succ tries => rw [refineEntry, if_pos h]

theorem refineEntry_of_none (h : s.beam[rank]? = none) :
    search.refineEntry (σ := σ) tries rank s = pure (rank, s) := by
  cases tries with
  | zero => rfl
  | succ tries =>
    rw [refineEntry, h]
    split <;> rfl

theorem refineFrom_of_ended (h : p.Ended search.config) (visits : Nat) :
    search.refineFrom (σ := σ) visits p = pure p.state := by
  cases p with
  | visiting => exact h.elim
  | between rank s =>
    cases visits with
    | zero => rfl
    | succ visits =>
      cases rank with
      | zero => rfl
      | succ rank =>
        have hmax : search.config.maxRefinementSteps ≤ s.stats.refinements := h.resolve_left (Nat.succ_ne_zero _)
        exact if_pos hmax

theorem refineStep_of_ended (h : p.Ended search.config) : search.refineStep (σ := σ) p = pure p := by
  match p with
  | .between 0 s => rfl
  | .between (rank + 1) s =>
    have hmax : search.config.maxRefinementSteps ≤ s.stats.refinements := h.resolve_left (Nat.succ_ne_zero _)
    rw [refineStep, if_pos hmax]

variable [LawfulMonad m]

omit [CostNumber κ] [RandomSource σ] in
/-- A stop has no results. -/
theorem satisfiesM_halt {α : Type} {P : α → Prop} : SatisfiesM P (search.halt : SearchM σ m α) :=
  SatisfiesM.trivial.map fun {never} _ => never.elim

variable (search) in
theorem satisfiesM_perturb (base : Candidate κ) (rank : Nat) (s : SearchState κ) :
    SatisfiesM (fun r => ∃ c : Candidate κ, c.order.Perm base.order ∧ r = s.afterPerturbation base rank c)
      (search.perturb (σ := σ) base rank s) := by
  cases hchance : search.seedChance rank with
  | none =>
    rw [perturb_of_none hchance]
    exact SatisfiesM.trivial.bind fun _ _ => satisfiesM_halt
  | some chance =>
    rw [perturb_of_some hchance]
    exact satisfiesM_drawn fun source cost => ⟨_, search.perm_drawPerturbation base chance source, rfl⟩

variable (search) in
theorem satisfiesM_trial (s : SearchState κ) :
    SatisfiesM (fun s' => ∃ c : Candidate κ, c.order.Perm (List.range search.predicates) ∧ s' = search.afterTrial s c)
      (search.trial (σ := σ) s) := by
  rw [trial_eq]
  exact satisfiesM_drawn fun source cost => ⟨_, search.perm_drawTrial source, rfl⟩

variable (search) in
theorem satisfiesM_refineStep (p : Refinement κ) :
    SatisfiesM (p.Step search.config) (search.refineStep (σ := σ) p) := by
  match p with
  | .between 0 s => exact .pure (.stay (.inl rfl))
  | .between (rank + 1) s =>
    rw [refineStep]
    split
    · next hmax => exact .pure (.stay (.inr hmax))
    · next hmax =>
      cases hentry : s.beam[rank]? with
      | some entry => exact .pure (.enter (Nat.lt_of_not_le hmax) hentry)
      | none => exact .pure (.skip (Nat.lt_of_not_le hmax) hentry)
  | .visiting _ 0 rank s => exact .pure .leave
  | .visiting entry (tries + 1) rank s =>
    rw [refineStep]
    split
    · exact .pure .leave
    · next hmax =>
      cases hbase : s.beam[rank]? with
      | none => exact .pure .leave
      | some base =>
        refine (search.satisfiesM_perturb base rank s).bind fun _ ⟨c, hperm, hr⟩ => ?_
        rw [hr]
        exact .pure (.perturb (Nat.lt_of_not_le hmax) hbase hperm)

theorem satisfiesM_refineSteps {P : Refinement κ → Prop} (hstep : ∀ p q, p.Step search.config q → P p → P q) (n : Nat)
    (hp : P p) : SatisfiesM P (search.refineSteps (σ := σ) n p) := by
  induction n generalizing p with
  | zero => exact .pure hp
  | succ n ih => exact (search.satisfiesM_refineStep p).bind fun q hq => ih (hstep p q hq hp)

theorem refineSteps_of_ended (h : p.Ended search.config) (n : Nat) :
    search.refineSteps (σ := σ) n p = pure p := by
  induction n with
  | zero => rfl
  | succ n ih => rw [refineSteps, refineStep_of_ended h, pure_bind, ih]

/-- As many steps as there is work come to an end. -/
theorem satisfiesM_ended {n : Nat} (h : p.work search.config ≤ n) :
    SatisfiesM (Refinement.Ended search.config) (search.refineSteps (σ := σ) n p) := by
  induction n generalizing p with
  | zero => exact .pure (Refinement.ended_of_work_eq_zero (Nat.le_zero.1 h))
  | succ n ih =>
    by_cases hp : p.Ended search.config
    · rw [refineSteps_of_ended hp]
      exact .pure hp
    · exact (search.satisfiesM_refineStep p).bind fun q hq => ih (Nat.le_of_lt_succ ((hq.work_lt hp).trans_le h))

/-- The refinement makes a step, after which fewer visits may be left. -/
theorem refineFrom_eq_bind {visits : Nat} (hp : ¬ p.Ended search.config)
    (hvisits : p.reach search.config ≤ visits) :
    ∃ visits', (∀ q, p.Step search.config q → q.reach search.config ≤ visits') ∧
      search.refineFrom (σ := σ) visits p = search.refineStep p >>= search.refineFrom visits' := by
  match p with
  | .between 0 s => exact absurd (.inl rfl) hp
  | .between (rank + 1) s =>
    have hsteps : ¬ s.stats.refinements ≥ search.config.maxRefinementSteps := fun hmax => hp (.inr hmax)
    -- the one step that takes from `visits`; the reach is less by one too
    obtain ⟨visits', rfl⟩ : ∃ visits', visits = visits' + 1 := ⟨visits - 1, by
      simp only [Refinement.reach, Refinement.rank] at hvisits
      omega⟩
    refine ⟨visits', fun q hq => ?_, ?_⟩
    · have hfewer := hq.reach_lt hp
      omega
    · rw [refineFrom, refineBelow, refineStep, if_neg hsteps, if_neg hsteps]
      cases hentry : s.beam[rank]? with
      | some entry => rw [pure_bind]; rfl
      | none => rw [pure_bind, refineEntry_of_none hentry, pure_bind]; rfl
  | .visiting entry tries rank s =>
    refine ⟨visits, fun q hq => (hq.reach_le).trans hvisits, ?_⟩
    cases tries with
    | zero => rw [refineFrom, refineStep, refineEntry, pure_bind, pure_bind]; rfl
    | succ tries =>
      rw [refineStep, refineFrom]
      by_cases hmax : s.stats.refinements ≥ search.config.maxRefinementSteps
      · rw [if_pos hmax, refineEntry_of_max_le hmax, pure_bind, pure_bind]; rfl
      · rw [if_neg hmax]
        cases hbase : s.beam[rank]? with
        | none => rw [refineEntry_of_none hbase, pure_bind, pure_bind]; rfl
        | some base =>
          rw [refineEntry, if_neg hmax, hbase]
          dsimp only
          rw [bind_assoc, bind_assoc]
          refine bind_congr fun r => ?_
          rw [pure_bind]
          rfl

/-- With a bound of the visits that is not too low, the refinement is the run of the machine. -/
theorem refineFrom_eq {n visits : Nat} (hn : p.work search.config ≤ n)
    (hvisits : p.reach search.config ≤ visits) :
    search.refineFrom (σ := σ) visits p = Refinement.state <$> search.refineSteps n p := by
  induction n generalizing p visits with
  | zero => rw [refineFrom_of_ended (Refinement.ended_of_work_eq_zero (Nat.le_zero.1 hn)), refineSteps, map_pure]
  | succ n ih =>
    by_cases hp : p.Ended search.config
    · rw [refineFrom_of_ended hp, refineSteps_of_ended hp, map_pure]
    · obtain ⟨visits', hvisits', hbind⟩ := refineFrom_eq_bind (σ := σ) hp hvisits
      rw [hbind, refineSteps, map_bind]
      refine bind_congr_of_satisfiesM (search.satisfiesM_refineStep p) fun q hq => ?_
      exact ih (Nat.le_of_lt_succ ((hq.work_lt hp).trans_le hn)) (hvisits' q hq)

variable (search) in
theorem refine_eq_refineSteps (s : SearchState κ) {n : Nat}
    (hn : 2 * (s.beam.length + search.config.maxRefinementSteps) + search.config.maxRefinementSteps ≤ n) :
    search.refine (σ := σ) s = Refinement.state <$> search.refineSteps n (.between s.beam.length s) ∧
    SatisfiesM (Refinement.Ended search.config) (search.refineSteps (σ := σ) n (.between s.beam.length s)) := by
  have hleft : (Refinement.between s.beam.length s).left search.config ≤ search.config.maxRefinementSteps :=
    Nat.sub_le ..
  have hreach : (Refinement.between s.beam.length s).reach search.config ≤
      s.beam.length + search.config.maxRefinementSteps := Nat.add_le_add_left hleft _
  have hwork : (Refinement.between s.beam.length s).work search.config ≤ n := by
    simp only [Refinement.work]
    omega
  exact ⟨refineFrom_eq hwork hreach, satisfiesM_ended hwork⟩

end Search

/-- The action on the left comes from states with `pre` to results and states with `post`, whatever is on the right. -/
def Lockstep.holding (ρ : Type) (m : Type → Type) [Monad m] [LawfulMonad m] : Lockstep (StateT ρ m) m ρ where
  Rel pre post x _ := ∀ state, pre state → SatisfiesM (fun r : _ × ρ => post r.1 r.2) (x.run state)
  pure h state hpre := .pure (h state hpre)
  bind hx hf state hpre := by
    rw [StateT.run_bind]
    exact (hx state hpre).bind fun r hmid => hf r.1 r.2 hmid
  mono hpre h state hpre' := h state (hpre state hpre')

/-- The action on the left does nothing but come to a result, whatever is on the right. -/
def Lockstep.returning (m : Type → Type) [Monad m] [LawfulMonad m] : Lockstep m m Unit where
  Rel _ _ x _ := ∃ a, x = Pure.pure a
  pure _ := ⟨_, rfl⟩
  bind {_ _ _ _ _ x _ f _} hx hf := by
    obtain ⟨a, rfl⟩ := hx
    obtain ⟨b, hb⟩ := hf a
    exact ⟨b, (pure_bind a f).trans hb⟩
  mono _ h := h

namespace Search

variable [CostNumber κ] [RandomSource σ] {m : Type → Type} [Monad m] [LawfulMonad m] (search : Search κ m)

/-- With every candidate that is evaluated a step is counted. -/
theorem invariant_counts (before : Nat) :
    search.recorded.Invariant ((Lockstep.holding (List (Candidate κ)) m).drawing σ) search.evaluate search.stop
      (fun _ _ s log => log.length + before = s.stats.refinements)
      (fun _ _ s log => log.length + before = s.stats.refinements) where
  enter _ h := h
  perturb _ {rank base s} _ _ := by
    refine lockstep_perturb (fun _ _ _ => SatisfiesM.trivial) fun seed order _ log hlog => ?_
    rw [StateT.run_map, run_evaluate_recorded, Functor.map_map]
    refine SatisfiesM.trivial.map fun {cost} _ => ?_
    show log.length + 1 + before = (s.afterPerturbation base rank ⟨seed, order, cost⟩).2.stats.refinements
    rw [SearchState.refinements_afterPerturbation]
    omega
  cut h := h

theorem satisfiesM_evaluated (s : SearchState κ) (source : σ) :
    SatisfiesM (fun r => r.2.length + s.stats.refinements = r.1.1.stats.refinements)
      (((search.recorded.refine s).run source).run []) := by
  have hrefine := (search.invariant_counts (σ := σ) s.stats.refinements).refineBelow
    (s.beam.length + search.config.maxRefinementSteps) s.beam.length s source [] (Nat.zero_add _)
  exact hrefine.imp fun ⟨_, _, hcount, _⟩ => hcount

variable {search}

theorem invariant_returning (hchance : search.config.seedChangeChance.isNumber = true)
    (hcost : ∀ seed order threshold, ∃ cost, search.evaluate seed order threshold = pure cost) :
    search.Invariant ((Lockstep.returning m).drawing σ) search.evaluate search.stop (fun _ _ _ _ => True)
      (fun _ _ _ _ => True) where
  enter _ _ := trivial
  perturb _ {rank _ _} _ _ := by
    refine lockstep_perturb (fun hnone => absurd hnone (seedChance_ne_none hchance)) fun seed order _ => ?_
    obtain ⟨cost, hcost⟩ := hcost seed order _
    rw [hcost]
    exact ⟨_, map_pure _ _⟩
  cut _ := trivial

/-- By a chance that is a number nothing stops a refinement. -/
theorem exists_refine_eq_pure (hchance : search.config.seedChangeChance.isNumber = true)
    (hcost : ∀ seed order threshold, ∃ cost, search.evaluate seed order threshold = pure cost) (s : SearchState κ)
    (source : σ) : ∃ r, (search.refine s).run source = pure r :=
  (invariant_returning hchance hcost).refineBelow _ _ s source

/-! ### The whole refinement -/

theorem satisfiesM_seedPhase [LawfulCostNumber κ] :
    SatisfiesM (SearchState.Seeded search.predicates) (search.seedPhase : SearchM σ m (SearchState κ)) := by
  have htrials (n : Nat) (s : SearchState κ) (hs : s.Seeded search.predicates) :
      SatisfiesM (SearchState.Seeded search.predicates) (search.trials (σ := σ) n s) := by
    induction n generalizing s with
    | zero => exact .pure hs
    | succ n ih =>
      refine (search.satisfiesM_trial s).bind fun _ ⟨c, hperm, hc⟩ => ih _ ?_
      exact hc ▸ hs.afterTrial hperm
  exact htrials _ _ ⟨.nil, rfl, rfl⟩

/-- The refinement of any beam is the run of the machine to its end, and evaluates as many candidates as it counts
steps. A visit keeps its entry until it is left. If the trials have left the beam, then at every step of the machine
the beam is well-formed, the rank that is visited has the entry of the visit, there are no more improvements than
steps, and no more steps than configured. If candidates have costs and the chance of a new seed is a number, then the
refinement comes to a result; by a chance that is not a number the first try stops the program before it evaluates. -/
theorem refine_sound [LawfulCostNumber κ] :
    (∀ (s : SearchState κ) (n : Nat),
      2 * (s.beam.length + search.config.maxRefinementSteps) + search.config.maxRefinementSteps ≤ n →
      search.refine (σ := σ) s = Refinement.state <$> search.refineSteps n (.between s.beam.length s) ∧
      SatisfiesM (Refinement.Ended search.config) (search.refineSteps (σ := σ) n (.between s.beam.length s))) ∧
    (∀ (s : SearchState κ) (source : σ),
      SatisfiesM (fun r => r.2.length + s.stats.refinements = r.1.1.stats.refinements)
        (((search.recorded.refine s).run source).run [])) ∧
    (∀ (entry : Candidate κ) (tries rank : Nat) (s : SearchState κ),
      SatisfiesM (fun q => ∃ rank' s', q = .between rank' s' ∨ ∃ tries' < tries, q = .visiting entry tries' rank' s')
        (search.refineStep (σ := σ) (.visiting entry tries rank s))) ∧
    (∀ n, SatisfiesM (Refinement.Sound search.config search.predicates)
      (search.seedPhase >>= fun s => search.refineSteps (σ := σ) n (.between s.beam.length s))) ∧
    (search.config.seedChangeChance.isNumber = true →
      (∀ seed order threshold, ∃ cost, search.evaluate seed order threshold = pure cost) →
      ∀ (s : SearchState κ) (source : σ), ∃ r, (search.refine s).run source = pure r) ∧
    (search.config.seedChangeChance.isNumber = false →
      ∀ (base : Candidate κ) (rank : Nat) (s : SearchState κ), search.perturb base rank s =
        (draw (Draw.mess search.config.messFraction base.order : Draw σ _) >>= fun _ => search.halt)) := by
  refine ⟨fun s n => search.refine_eq_refineSteps s, search.satisfiesM_evaluated, fun entry tries rank s => ?_,
    fun n => ?_, exists_refine_eq_pure, fun hchance base _ s => ?_⟩
  · exact (search.satisfiesM_refineStep _).imp fun hstep => hstep.keeps
  · refine search.satisfiesM_seedPhase.bind fun s hs => ?_
    refine satisfiesM_refineSteps (fun p q hstep => hstep.sound) n ⟨hs.wellFormed, ?_, ?_, le_rfl⟩
    · show s.stats.refinements ≤ _
      rw [hs.refinements]
      exact Nat.zero_le _
    · show s.stats.improvements ≤ s.stats.refinements
      rw [hs.refinements, hs.improvements]
  · exact perturb_of_none (seedChance_eq_none.2 hchance) base s

/-- A search of three predicates, where a candidate costs what its first predicate and its seed say. -/
def threePredicates : Search Exact (Except String) where
  config := { seedTrials := 4, minBeam := 0, refineTriesMin := 2, maxRefinementSteps := 3 }
  relations := 2
  predicates := 3
  evaluate seed order _ := pure (ofCount (order.headI + seed.toNat % 3 * 10))
  stop := throw "stopped"

/-- The trials leave four entries, two of one cost; the search ends as the machine does. -/
theorem refine_sound_threePredicates : ∃ start p source,
    threePredicates.seedPhase.run (Generator.ofSeed 4) = .ok start ∧
    start.1.beam.map (·.cost) = [((10 : ℚ) : Exact), ((20 : ℚ) : Exact), ((22 : ℚ) : Exact), ((22 : ℚ) : Exact)] ∧
    threePredicates.run.run (Generator.ofSeed 4) = .ok (Refinement.state p, source) ∧
    p.Ended threePredicates.config ∧ p.Sound threePredicates.config 3 := by
  have hcosts : (threePredicates.seedPhase.run (Generator.ofSeed 4)).toOption.map (·.1.beam.map (·.cost)) =
      some [((10 : ℚ) : Exact), ((20 : ℚ) : Exact), ((22 : ℚ) : Exact), ((22 : ℚ) : Exact)] := by
    decide +kernel
  have hresult {α : Type} {P : α → Prop} {x : SearchM Generator (Except String) α} (h : SatisfiesM P x)
      {source : Generator} {r : α × Generator} (hr : x.run source = .ok r) : P r.1 :=
    SatisfiesM_Except_eq.1 (SatisfiesM_StateT_eq.1 h source) r hr
  obtain ⟨hrefine, -, -, hsound, hreturns, -⟩ := threePredicates.refine_sound (σ := Generator)
  cases hstart : threePredicates.seedPhase.run (Generator.ofSeed 4) with
  | error e => rw [hstart] at hcosts; cases hcosts
  | ok start =>
    rw [hstart] at hcosts
    obtain ⟨n, hn⟩ : ∃ n, 2 * (start.1.beam.length + threePredicates.config.maxRefinementSteps) +
        threePredicates.config.maxRefinementSteps ≤ n := ⟨_, le_rfl⟩
    obtain ⟨heq, hended⟩ := hrefine start.1 n hn
    obtain ⟨r, hr⟩ := hreturns rfl (fun _ _ _ => ⟨_, rfl⟩) start.1 start.2
    have hrun : threePredicates.run.run (Generator.ofSeed 4) = .ok r := by
      show (threePredicates.seedPhase.run (Generator.ofSeed 4) >>= fun start =>
        (threePredicates.refine start.1).run start.2) = _
      rw [hstart]
      exact hr
    rw [heq, StateT.run_map] at hr
    cases hsteps : (threePredicates.refineSteps n (.between start.1.beam.length start.1)).run start.2 with
    | error e => rw [hsteps] at hr; cases hr
    | ok last =>
      rw [hsteps] at hr
      obtain rfl := Except.ok.inj hr
      have hmachine : (threePredicates.seedPhase >>= fun s => threePredicates.refineSteps n
          (.between s.beam.length s)).run (Generator.ofSeed 4) = .ok last := by
        rw [StateT.run_bind, hstart]
        exact hsteps
      exact ⟨start, last.1, last.2, rfl, Option.some.inj hcosts, hrun, hresult hended hsteps,
        hresult (hsound n) hmachine⟩

end Search

end JoinPlanner
