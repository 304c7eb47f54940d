import JoinPlanner.Search.Run

/-!
# Searches side by side

The same search runs with two evaluations, in two monads, and what relates the runs is kept in worlds of some
type (`Lockstep`). If every step takes both runs to one state and keeps an invariant, then so do the loops: the
trials (`Search.lockstep_trials`), and in the refinement (`Search.Invariant`) the tries at a rank
(`refineEntry`), the ranks (`refineBelow`) and so the whole search (`run`).
-/

namespace JoinPlanner

/-- A relation of actions in two monads. `Rel pre post x y` is to say that from a world with `pre` both actions
come to one result, and then the world and the result have `post`. -/
structure Lockstep (m n : Type → Type) [Monad m] [Monad n] (W : Type) where
  Rel {α : Type} : (W → Prop) → (α → W → Prop) → m α → n α → Prop
  pure {α : Type} {pre : W → Prop} {post : α → W → Prop} {a : α} :
    (∀ w, pre w → post a w) → Rel pre post (pure a) (pure a)
  bind {α β : Type} {pre : W → Prop} {mid : α → W → Prop} {post : β → W → Prop} {x : m α} {y : n α}
    {f : α → m β} {g : α → n β} :
    Rel pre mid x y → (∀ a, Rel (mid a) post (f a) (g a)) → Rel pre post (x >>= f) (y >>= g)
  mono {α : Type} {pre pre' : W → Prop} {post : α → W → Prop} {x : m α} {y : n α} :
    (∀ w, pre' w → pre w) → Rel pre post x y → Rel pre' post x y

/-- Actions that draw from one source on both sides. -/
def Lockstep.drawing {m n : Type → Type} [Monad m] [Monad n] {W : Type} (L : Lockstep m n W) (σ : Type) :
    Lockstep (SearchM σ m) (SearchM σ n) W where
  Rel pre post x y := ∀ source, L.Rel pre (fun r : _ × σ => post r.1) (x.run source) (y.run source)
  pure h _ := L.pure h
  bind hx hf source := L.bind (hx source) fun r => hf r.1 r.2
  mono hpre h source := L.mono hpre (h source)

namespace Search

variable {κ σ W : Type} {m n : Type → Type} [Monad m] [Monad n]

/-- The search with another evaluation, in a monad with a stop of its own. -/
def withEvaluate (search : Search κ m) (evaluate : UInt64 → List Nat → κ → n κ) (stop : n Empty) : Search κ n :=
  ⟨search.config, search.relations, search.predicates, evaluate, stop⟩

variable [CostNumber κ] [RandomSource σ]

theorem lockstep_trials {L : Lockstep (SearchM σ m) (SearchM σ n) W} {search : Search κ m}
    {evaluate : UInt64 → List Nat → κ → n κ} {stop : n Empty} {I : SearchState κ → W → Prop}
    (htrial : ∀ s, L.Rel (I s) I (search.trial s) ((search.withEvaluate evaluate stop).trial s)) (k : Nat)
    (s : SearchState κ) : L.Rel (I s) I (search.trials k s) ((search.withEvaluate evaluate stop).trials k s) := by
  induction k generalizing s with
  | zero => exact L.pure fun _ hI => hI
  | succ k ih => exact L.bind (htrial s) ih

/-- What holds in the course of the refinement: `K visits rank` between the ranks, and `J visits rank` at a rank;
`visits` bounds the ranks that are still to be visited. -/
structure Invariant (L : Lockstep (SearchM σ m) (SearchM σ n) W) (search : Search κ m)
    (evaluate : UInt64 → List Nat → κ → n κ) (stop : n Empty) (J K : Nat → Nat → SearchState κ → W → Prop) : Prop where
  enter {visits rank : Nat} {s : SearchState κ} {w : W} :
    s.stats.refinements < search.config.maxRefinementSteps → K (visits + 1) (rank + 1) s w → J visits rank s w
  perturb (visits : Nat) {rank : Nat} {base : Candidate κ} {s : SearchState κ} :
    s.beam[rank]? = some base → s.stats.refinements < search.config.maxRefinementSteps →
      L.Rel (J visits rank s) (fun r => J visits r.1 r.2) (search.perturb base rank s)
        ((search.withEvaluate evaluate stop).perturb base rank s)
  cut {visits rank : Nat} {s : SearchState κ} {w : W} :
    J visits rank s w → K visits rank { s with beam := s.beam.take (max rank search.config.minBeam) } w

namespace Invariant

variable {L : Lockstep (SearchM σ m) (SearchM σ n) W} {search : Search κ m}
  {evaluate : UInt64 → List Nat → κ → n κ} {stop : n Empty} {J K : Nat → Nat → SearchState κ → W → Prop}
  (h : search.Invariant L evaluate stop J K)
include h

theorem refineEntry (visits tries rank : Nat) (s : SearchState κ) :
    L.Rel (J visits rank s) (fun r => J visits r.1 r.2) (search.refineEntry tries rank s)
      ((search.withEvaluate evaluate stop).refineEntry tries rank s) := by
  induction tries generalizing rank s with
  | zero => exact L.pure fun _ hJ => hJ
  | succ tries ih =>
    have hdone : L.Rel (J visits rank s) (fun r : Nat × SearchState κ => J visits r.1 r.2) (pure (rank, s))
        (pure (rank, s)) := L.pure fun _ hJ => hJ
    unfold Search.refineEntry
    by_cases hmax : s.stats.refinements ≥ search.config.maxRefinementSteps
    · rw [if_pos hmax, if_pos (show _ ≥ (search.withEvaluate evaluate stop).config.maxRefinementSteps from hmax)]
      exact hdone
    · rw [if_neg hmax, if_neg (show ¬ _ ≥ (search.withEvaluate evaluate stop).config.maxRefinementSteps from hmax)]
      cases hbase : s.beam[rank]? with
      | none => exact hdone
      | some base => exact L.bind (h.perturb visits hbase (Nat.lt_of_not_le hmax)) fun r => ih r.1 r.2

/-- The loop ends because there are no ranks left, or no steps, or no visits. -/
theorem refineBelow (visits rank : Nat) (s : SearchState κ) :
    L.Rel (K visits rank s)
      (fun s w => ∃ visits rank, K visits rank s w ∧
        (visits = 0 ∨ rank = 0 ∨ search.config.maxRefinementSteps ≤ s.stats.refinements))
      (search.refineBelow visits rank s) ((search.withEvaluate evaluate stop).refineBelow visits rank s) := by
  induction visits generalizing rank s with
  | zero => exact L.pure fun _ hK => ⟨0, rank, hK, .inl rfl⟩
  | succ visits ih =>
    cases rank with
    | zero => exact L.pure fun _ hK => ⟨visits + 1, 0, hK, .inr (.inl rfl)⟩
    | succ rank =>
      unfold Search.refineBelow
      by_cases hmax : s.stats.refinements ≥ search.config.maxRefinementSteps
      · rw [if_pos hmax, if_pos (show _ ≥ (search.withEvaluate evaluate stop).config.maxRefinementSteps from hmax)]
        exact L.pure fun _ hK => ⟨visits + 1, rank + 1, hK, .inr (.inr hmax)⟩
      · rw [if_neg hmax, if_neg (show ¬ _ ≥ (search.withEvaluate evaluate stop).config.maxRefinementSteps from hmax)]
        have hentry := L.mono (fun _ => h.enter (Nat.lt_of_not_le hmax))
          (h.refineEntry visits (search.triesAt rank) rank s)
        exact L.bind hentry fun r => L.mono (fun _ => h.cut) (ih r.1 _)

theorem run (pre : W → Prop) {I : SearchState κ → W → Prop}
    (hstart : ∀ w, pre w → I { stats.beamCapacity := search.capacity } w)
    (htrial : ∀ s, L.Rel (I s) I (search.trial s) ((search.withEvaluate evaluate stop).trial s))
    (hrefine : ∀ s w, I s w → K (s.beam.length + search.config.maxRefinementSteps) s.beam.length s w) :
    L.Rel pre
      (fun s w => ∃ visits rank, K visits rank s w ∧
        (visits = 0 ∨ rank = 0 ∨ search.config.maxRefinementSteps ≤ s.stats.refinements))
      search.run (search.withEvaluate evaluate stop).run :=
  L.bind (L.mono hstart (lockstep_trials htrial _ _)) fun s => L.mono (hrefine s) (h.refineBelow _ _ s)

end Invariant

end Search

end JoinPlanner
