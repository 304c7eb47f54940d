import JoinPlanner.Proofs.Random.Draws
import JoinPlanner.Proofs.Search.Beam
import JoinPlanner.Proofs.Search.Lockstep

/-!
# Steps of the search

A trial and a perturbation each draw a candidate, evaluate it up to a threshold and then go on without draws
(`trial_eq`, `perturb_eq`). The orders drawn are permutations (`perm_drawTrial`, `perm_drawPerturbation`).
-/

namespace JoinPlanner

namespace Draw

variable {σ : Type} [RandomSource σ]

theorem swapTimes_perm {α : Type} (n : Nat) (a : Array α) (s : σ) :
    ((swapTimes n a).run s).1.toList.Perm a.toList := by
  induction n generalizing a s with
  | zero => exact .refl _
  | succ n ih => exact (ih _ _).trans (swapIfInBounds_perm a _ _)

theorem mess_perm (fraction : Float) (order : List Nat) (s : σ) : ((mess fraction order).run s).1.Perm order := by
  unfold mess
  by_cases hshort : order.length < 2
  · rw [if_pos hshort]
    exact .refl _
  · rw [if_neg hshort]
    exact swapTimes_perm _ _ _

end Draw

section Pure

variable {κ : Type} [CostNumber κ]

open CostNumber (le isFinite)

/-- The rank and the state after a perturbation of an entry to a candidate. -/
def SearchState.afterPerturbation (s : SearchState κ) (base : Candidate κ) (rank : Nat) (c : Candidate κ) :
    Nat × SearchState κ :=
  let s' := { s with stats.refinements := s.stats.refinements + 1 }
  if le base.cost c.cost then (rank, s')
  else
    match c.insertInto s.beam with
    | some (place, beam) =>
      (if place ≤ rank then rank + 1 else rank,
        { beam, stats := { s'.stats with improvements := s.stats.improvements + 1 } })
    | none => (rank, s')

/-- The state after a trial of a candidate. -/
def Search.afterTrial {m : Type → Type} (search : Search κ m) (s : SearchState κ) (c : Candidate κ) :
    SearchState κ :=
  let s' := { s with stats.trials := s.stats.trials + 1 }
  if (search.trialThreshold s.beam).any (le · c.cost) then s'
  else
    match c.insertInto s.beam with
    | some (_, beam) => { s' with beam := beam.take search.capacity }
    | none => s'

variable (s : SearchState κ) (base c : Candidate κ) (rank : Nat)

namespace Search

variable {m : Type → Type} (search : Search κ m)

omit [CostNumber κ] in
theorem capacity_pos : 0 < search.capacity := by
  dsimp only [capacity]
  omega

variable {search s} in
omit [CostNumber κ] in
theorem mem_of_trialThreshold {threshold : κ} (h : search.trialThreshold s.beam = some threshold) :
    ∃ b ∈ s.beam, b.cost = threshold := by
  rw [trialThreshold] at h
  split at h
  · obtain ⟨b, hb, rfl⟩ := Option.map_eq_some_iff.1 h
    exact ⟨b, List.mem_of_getLast? hb, rfl⟩
  · cases h

/-- The candidate is inserted and the beam cut, or the beam stays, which has an entry if the cost is finite. -/
theorem afterTrial_cases :
    (search.afterTrial s c).beam = s.beam ∧ (isFinite c.cost = true → s.beam ≠ []) ∨
    ∃ beam : List (Candidate κ), beam.Perm (c :: s.beam) ∧ (search.afterTrial s c).beam = beam.take search.capacity := by
  unfold afterTrial
  dsimp only
  split
  · next hany =>
    obtain ⟨threshold, hthreshold, -⟩ := (Option.any_eq_true ..).1 hany
    obtain ⟨b, hb, -⟩ := mem_of_trialThreshold hthreshold
    exact .inl ⟨rfl, fun _ => List.ne_nil_of_mem hb⟩
  · cases hinsert : c.insertInto s.beam with
    | none =>
      refine .inl ⟨rfl, fun hfinite => ?_⟩
      obtain hinfinite | ⟨b, hb, -⟩ := Candidate.insertInto_eq_none.1 hinsert
      · rw [hinfinite] at hfinite
        cases hfinite
      · exact List.ne_nil_of_mem hb
    | some inserted => exact .inr ⟨inserted.2, Candidate.perm_of_insertInto hinsert, rfl⟩

theorem refinements_afterTrial : (search.afterTrial s c).stats.refinements = s.stats.refinements := by
  unfold afterTrial
  dsimp only
  split
  · rfl
  · cases c.insertInto s.beam <;> rfl

end Search

namespace SearchState

/-- Beam and rank stay, or the candidate is inserted and the entry may move to the next rank. -/
theorem afterPerturbation_cases :
    (s.afterPerturbation base rank c).1 = rank ∧ (s.afterPerturbation base rank c).2.beam = s.beam ∨
    (s.afterPerturbation base rank c).1 ≤ rank + 1 ∧
      (s.afterPerturbation base rank c).2.beam.Perm (c :: s.beam) := by
  unfold afterPerturbation
  dsimp only
  split
  · exact .inl ⟨rfl, rfl⟩
  · cases hinsert : c.insertInto s.beam with
    | none => exact .inl ⟨rfl, rfl⟩
    | some inserted =>
      refine .inr ⟨?_, Candidate.perm_of_insertInto hinsert⟩
      dsimp only
      split <;> omega

theorem rank_afterPerturbation_le : (s.afterPerturbation base rank c).1 ≤ rank + 1 := by
  obtain ⟨hrank, -⟩ | ⟨hrank, -⟩ := s.afterPerturbation_cases base c rank
  · exact hrank.le.trans (Nat.le_succ rank)
  · exact hrank

theorem refinements_afterPerturbation :
    (s.afterPerturbation base rank c).2.stats.refinements = s.stats.refinements + 1 := by
  unfold afterPerturbation
  dsimp only
  split
  · rfl
  · cases c.insertInto s.beam <;> rfl

end SearchState

end Pure

section Draws

variable {σ α β : Type} {m : Type → Type} [Monad m]

theorem draw_pure (a : α) : draw (pure a : Draw σ α) = (pure a : StateT σ m α) := rfl

variable [LawfulMonad m]

theorem run_draw_bind (x : Draw σ α) (f : α → StateT σ m β) (source : σ) :
    (draw x >>= f).run source = (f (x.run source).1).run (x.run source).2 := pure_bind _ _

theorem draw_bind (x : Draw σ α) (f : α → Draw σ β) :
    draw (x >>= f) = (draw x >>= fun a => draw (f a) : StateT σ m β) := by
  funext source
  exact (run_draw_bind x (fun a => draw (f a)) source).symm

theorem run_lift_bind_pure (x : m α) (g : α → β) (source : σ) :
    (do let a ← x; return g a : StateT σ m β).run source = g <$> x >>= fun b => pure (b, source) := by
  simp only [StateT.run_bind, StateT.run_pure, map_eq_pure_bind, bind_assoc, pure_bind, StateT.run_monadLift,
    monadLift_self]

end Draws

namespace Search

variable {κ σ : Type} {m : Type → Type} [RandomSource σ] (search : Search κ m)

/-- The seed and the order of a trial. -/
def drawTrial : Draw σ (UInt64 × List Nat) := do
  let seed ← Draw.longWord
  let order ← Draw.shuffle (List.range search.predicates)
  return (seed, order)

/-- The seed and the order of a perturbation with a chance of a new seed. -/
def drawPerturbation (base : Candidate κ) (chance : Float) : Draw σ (UInt64 × List Nat) := do
  let order ← Draw.mess search.config.messFraction base.order
  let fresh ← Draw.chance chance
  let seed ← if fresh then Draw.longWord else pure base.seed
  return (seed, order)

theorem perm_drawTrial (source : σ) : (search.drawTrial.run source).1.2.Perm (List.range search.predicates) :=
  Draw.shuffle_perm _ _

theorem perm_drawPerturbation (base : Candidate κ) (chance : Float) (source : σ) :
    ((search.drawPerturbation base chance).run source).1.2.Perm base.order := by
  have hmess := Draw.mess_perm search.config.messFraction base.order source
  simp only [drawPerturbation, StateT.run_bind]
  generalize (Draw.mess search.config.messFraction base.order).run source = ordered at hmess ⊢
  show ((ite (((Draw.chance chance).run ordered.2).1 = true) _ _ :
    Draw σ (UInt64 × List Nat)).run _).1.2.Perm _
  split <;> exact hmess

variable [CostNumber κ] [Monad m] [LawfulMonad m]

open CostNumber (infinity)

theorem trial_eq (s : SearchState κ) : search.trial (σ := σ) s = do
    let drawn ← draw search.drawTrial
    let cost ← search.evaluate drawn.1 drawn.2 ((search.trialThreshold s.beam).getD infinity)
    return search.afterTrial s ⟨drawn.1, drawn.2, cost⟩ := by
  simp only [drawTrial, draw_bind, draw_pure, bind_assoc, pure_bind]
  refine bind_congr fun seed => bind_congr fun order => bind_congr fun cost => ?_
  rw [afterTrial]
  split
  · rfl
  · dsimp only
    cases Candidate.insertInto ⟨seed, order, cost⟩ s.beam <;> rfl

omit [RandomSource σ] [CostNumber κ] in
theorem run_halt {α : Type} (source : σ) :
    (search.halt : SearchM σ m α).run source = Empty.elim <$> search.stop := by
  rw [halt, StateT.run_map, StateT.run_lift, map_eq_pure_bind, bind_assoc, map_eq_pure_bind]
  exact bind_congr fun never => never.elim

omit [RandomSource σ] [CostNumber κ] in
/-- Nothing comes after a stop. -/
theorem halt_bind {α β : Type} (f : α → SearchM σ m β) : search.halt >>= f = search.halt := by
  rw [halt, bind_map_left, halt, map_eq_pure_bind]
  exact bind_congr fun never => never.elim

variable {search} {rank : Nat}

omit [CostNumber κ] [Monad m] [LawfulMonad m] in
theorem seedChance_eq_none : search.seedChance rank = none ↔ search.config.seedChangeChance.isNumber = false := by
  unfold seedChance
  cases search.config.seedChangeChance.isNumber <;> simp

omit [CostNumber κ] [Monad m] [LawfulMonad m] in
theorem seedChance_ne_none (h : search.config.seedChangeChance.isNumber = true) : search.seedChance rank ≠ none := by
  intro hnone
  rw [seedChance_eq_none, h] at hnone
  cases hnone

/-- With no chance to draw by, a perturbation stops after the swaps are drawn. -/
theorem perturb_of_none (h : search.seedChance rank = none) (base : Candidate κ) (s : SearchState κ) :
    search.perturb base rank s =
      (draw (Draw.mess search.config.messFraction base.order : Draw σ _) >>= fun _ => search.halt) := by
  have hfresh : search.drawFresh rank = (search.halt : SearchM σ m Bool) := by rw [drawFresh, h]
  unfold perturb
  refine bind_congr fun order => ?_
  rw [hfresh, halt_bind]

theorem perturb_of_some {chance : Float} (h : search.seedChance rank = some chance) (base : Candidate κ)
    (s : SearchState κ) : search.perturb base rank s = do
      let drawn ← draw (search.drawPerturbation base chance : Draw σ _)
      let cost ← search.evaluate drawn.1 drawn.2 base.cost
      return s.afterPerturbation base rank ⟨drawn.1, drawn.2, cost⟩ := by
  have hfresh : search.drawFresh rank = (draw (Draw.chance chance) : SearchM σ m Bool) := by rw [drawFresh, h]
  simp only [drawPerturbation, draw_bind, bind_assoc]
  rw [perturb, hfresh]
  refine bind_congr fun order => bind_congr fun fresh => ?_
  extract_lets _ _ _ keep
  have hkeep (seed : UInt64) : keep seed = do
      let cost ← search.evaluate seed order base.cost
      return s.afterPerturbation base rank ⟨seed, order, cost⟩ := by
    refine bind_congr fun cost => ?_
    rw [SearchState.afterPerturbation]
    split
    · rfl
    · cases Candidate.insertInto ⟨seed, order, cost⟩ s.beam <;> rfl
  cases fresh with
  | true => simp only [if_true, hkeep, draw_bind, draw_pure, bind_assoc, pure_bind]
  | false => simp only [Bool.false_eq_true, if_false, hkeep, draw_pure, pure_bind]

end Search

/-! ### Steps side by side -/

section Lockstep

variable {κ σ W : Type} {m n : Type → Type} [Monad m] [LawfulMonad m] [Monad n] [LawfulMonad n]
  {L : Lockstep m n W}

/-- What is drawn is the same on both sides, so two steps are in lockstep if they are so after the draw. -/
theorem Lockstep.draw_bind {α β γ : Type} {pre : W → Prop} {post : γ → W → Prop} {drawn : Draw σ α} {x : α → m β}
    {y : α → n β} {g : α → β → γ}
    (h : ∀ source : σ, L.Rel pre post (g (drawn.run source).1 <$> x (drawn.run source).1)
      (g (drawn.run source).1 <$> y (drawn.run source).1)) :
    (L.drawing σ).Rel pre post (do let a ← draw drawn; let b ← x a; return g a b)
      (do let a ← draw drawn; let b ← y a; return g a b) := by
  intro source
  rw [run_draw_bind, run_draw_bind, run_lift_bind_pure, run_lift_bind_pure]
  exact L.bind (h source) fun c => L.pure fun _ hc => hc

namespace Search

variable [CostNumber κ] [RandomSource σ] {search : Search κ m} {evaluate : UInt64 → List Nat → κ → n κ}
  {stop : n Empty} {pre : W → Prop} {s : SearchState κ}

open CostNumber (infinity)

theorem lockstep_trial {post : SearchState κ → W → Prop}
    (h : ∀ seed order, order.Perm (List.range search.predicates) →
      L.Rel pre post
        ((search.afterTrial s ⟨seed, order, ·⟩) <$>
          search.evaluate seed order ((search.trialThreshold s.beam).getD infinity))
        ((search.afterTrial s ⟨seed, order, ·⟩) <$>
          evaluate seed order ((search.trialThreshold s.beam).getD infinity))) :
    (L.drawing σ).Rel pre post (search.trial s) ((search.withEvaluate evaluate stop).trial s) := by
  rw [trial_eq, trial_eq]
  exact Lockstep.draw_bind fun source => h _ _ (search.perm_drawTrial source)

theorem lockstep_perturb {base : Candidate κ} {rank : Nat} {post : Nat × SearchState κ → W → Prop}
    (hstop : search.seedChance rank = none → L.Rel pre (fun _ _ => True) search.stop stop)
    (h : ∀ seed order, order.Perm base.order →
      L.Rel pre post ((s.afterPerturbation base rank ⟨seed, order, ·⟩) <$> search.evaluate seed order base.cost)
        ((s.afterPerturbation base rank ⟨seed, order, ·⟩) <$> evaluate seed order base.cost)) :
    (L.drawing σ).Rel pre post (search.perturb base rank s)
      ((search.withEvaluate evaluate stop).perturb base rank s) := by
  cases hchance : search.seedChance rank with
  | none =>
    have hchance' : (search.withEvaluate evaluate stop).seedChance rank = none := hchance
    rw [perturb_of_none hchance, perturb_of_none hchance']
    intro source
    rw [run_draw_bind, run_draw_bind, run_halt, run_halt, map_eq_pure_bind, map_eq_pure_bind]
    exact L.bind (hstop hchance) fun never => never.elim
  | some chance =>
    have hchance' : (search.withEvaluate evaluate stop).seedChance rank = some chance := hchance
    rw [perturb_of_some hchance, perturb_of_some hchance']
    exact Lockstep.draw_bind fun source => h _ _ (search.perm_drawPerturbation base chance source)

end Search

end Lockstep

end JoinPlanner
