import JoinPlanner.Proofs.Cost.Session
import JoinPlanner.Proofs.Search.Step

/-!
# Recorded searches

`Search.recorded` is the search that keeps a record of all candidates that it evaluates and of the answers. The
record changes nothing (`run_recorded`). A recorded search is compared with another search by `PlanM.lockstep`,
from all states with some invariant: both evaluations come to an answer (`PlanM.Yields`), and what the answers lead
to is the same (`lockstep_answers`), or both searches fail. In sessions the invariant is to agree with a first one.
-/

namespace JoinPlanner

variable {κ σ α β : Type}

namespace Search

variable {m : Type → Type} [Monad m]

/-- The search that records what it evaluates, the last candidate first. -/
def recorded (search : Search κ m) : Search κ (StateT (List (Candidate κ)) m) :=
  let evaluate (seed : UInt64) (order : List Nat) (threshold : κ) : StateT (List (Candidate κ)) m κ := do
    let cost ← search.evaluate seed order threshold
    modify (⟨seed, order, cost⟩ :: ·)
    return cost
  search.withEvaluate evaluate (StateT.lift search.stop)

variable [LawfulMonad m]

theorem run_evaluate_recorded (search : Search κ m) (seed : UInt64) (order : List Nat) (threshold : κ)
    (log : List (Candidate κ)) : (search.recorded.evaluate seed order threshold).run log =
      (fun cost => (cost, ⟨seed, order, cost⟩ :: log)) <$> search.evaluate seed order threshold := by
  simp [recorded, withEvaluate]

theorem run_stop_recorded (search : Search κ m) (log : List (Candidate κ)) :
    Prod.fst <$> search.recorded.stop.run log = search.stop := by
  simp [recorded, withEvaluate]

end Search

/-- The action on the left does the same as the one on the right but for its own state. -/
def Lockstep.erasing (ρ : Type) (m : Type → Type) [Monad m] [LawfulMonad m] : Lockstep (StateT ρ m) m Unit where
  Rel _ _ x y := ∀ state, Prod.fst <$> x.run state = y
  pure _ state := by simp
  bind {_ _ _ _ _ x y f g} hx hf state := by
    have hy : y = Prod.fst <$> x.run state := (hx state).symm
    rw [StateT.run_bind, map_bind, hy, bind_map_left]
    exact bind_congr fun r => hf r.1 r.2
  mono _ h := h

namespace Search

variable [CostNumber κ] [RandomSource σ] {m : Type → Type} [Monad m] [LawfulMonad m] (search : Search κ m)

theorem invariant_erasing : search.recorded.Invariant ((Lockstep.erasing (List (Candidate κ)) m).drawing σ)
    search.evaluate search.stop (fun _ _ _ _ => True) (fun _ _ _ _ => True) where
  enter _ _ := trivial
  perturb _ {_ _ _} _ _ := lockstep_perturb (fun _ log => search.run_stop_recorded log) fun seed order _ log => by
    rw [StateT.run_map, run_evaluate_recorded]
    simp
  cut _ := trivial

theorem run_recorded (source : σ) (log : List (Candidate κ)) :
    Prod.fst <$> (search.recorded.run.run source).run log = search.run.run source := by
  have htrial (s : SearchState κ) : ((Lockstep.erasing (List (Candidate κ)) m).drawing σ).Rel (fun _ => True)
      (fun _ _ => True) (search.recorded.trial s) (search.trial s) :=
    lockstep_trial fun seed order _ log => by
      rw [StateT.run_map, run_evaluate_recorded]
      simp
  have hrun := search.invariant_erasing.run (fun _ => True) (I := fun _ _ => True) (fun _ _ => trivial) htrial
    fun _ _ _ => trivial
  exact hrun source log

end Search

namespace PlanM

variable {S : Type} {I : S → Prop} {s : S}

/-- The action comes to `a` in every state with `I`, and leaves one with it. -/
def Yields (I : S → Prop) (x : PlanM S α) (a : α) : Prop :=
  ∀ s, I s → ∃ s', x.run.run s = (.ok a, s') ∧ I s'

/-- The action comes to an error in every state with `I`. -/
def Fails (I : S → Prop) (x : PlanM S α) : Prop := ∀ s, I s → ∃ e, x.result s = .error e

namespace Yields

theorem pure (a : α) : Yields I (pure a) a := fun s h => ⟨s, rfl, h⟩

theorem bind {x : PlanM S α} {f : α → PlanM S β} {a : α} {b : β} (hx : Yields I x a) (hf : Yields I (f a) b) :
    Yields I (x >>= f) b := by
  intro s h
  obtain ⟨t, hrun, ht⟩ := hx s h
  obtain ⟨t', hrun', ht'⟩ := hf t ht
  refine ⟨t', ?_, ht'⟩
  rw [ExceptT.run_bind, StateT.run_bind, hrun]
  exact hrun'

/-- What comes after the action comes to what it comes to in some state with the invariant. -/
theorem result_bind {x : PlanM S α} {a : α} (hx : Yields I x a) (hs : I s) (f : α → PlanM S β) :
    ∃ t, I t ∧ (x >>= f).result s = (f a).result t := by
  obtain ⟨t, hrun, ht⟩ := hx s hs
  refine ⟨t, ht, ?_⟩
  rw [PlanM.result, ExceptT.run_bind, StateT.run_bind, hrun]
  rfl

theorem map {x : PlanM S α} {a : α} (f : α → β) (hx : Yields I x a) : Yields I (f <$> x) (f a) := by
  rw [map_eq_pure_bind]
  exact hx.bind (pure _)

theorem result {x : PlanM S α} {a : α} (hx : Yields I x a) (hs : I s) : x.result s = .ok a := by
  obtain ⟨t, hrun, -⟩ := hx s hs
  rw [PlanM.result, hrun]

end Yields

namespace Fails

/-- Nothing is done after an error. -/
theorem bind {x : PlanM S α} (hx : Fails I x) (f : α → PlanM S β) : Fails I (x >>= f) := by
  intro s hs
  obtain ⟨e, he⟩ := hx s hs
  refine ⟨e, ?_⟩
  rw [PlanM.result, ExceptT.run_bind, StateT.run_bind]
  rw [PlanM.result] at he
  generalize x.run.run s = r at he
  obtain ⟨_, t⟩ := r
  cases he
  rfl

theorem of_bind {x : PlanM S α} {f : α → PlanM S β} {a : α} (hx : Yields I x a) (hf : Fails I (f a)) :
    Fails I (x >>= f) := by
  intro s hs
  obtain ⟨t, ht, hresult⟩ := hx.result_bind hs f
  rw [hresult]
  exact hf t ht

/-- What has no results comes to an error. -/
theorem of_isEmpty [IsEmpty α] (x : PlanM S α) : Fails I x := by
  intro s _
  cases h : x.result s with
  | error e => exact ⟨e, rfl⟩
  | ok a => exact isEmptyElim a

end Fails

/-- A recorded search and another search come to one result from the states with `I`, or both come to an error, if
they may. The world is the record. -/
def lockstep (κ : Type) (I : S → Prop) (mayFail : Prop) :
    Lockstep (StateT (List (Candidate κ)) (PlanM S)) (PlanM S) (List (Candidate κ)) where
  Rel pre post x y := ∀ log, pre log →
    (∃ a log', Yields I (x.run log) (a, log') ∧ Yields I y a ∧ post a log') ∨
      (mayFail ∧ Fails I (x.run log) ∧ Fails I y)
  pure h log hpre := .inl ⟨_, log, .pure _, .pure _, h log hpre⟩
  bind hx hf log hpre := by
    obtain ⟨a, log', hxa, hya, hmid⟩ | ⟨hmay, hfx, hfy⟩ := hx log hpre
    · obtain ⟨b, log'', hxb, hyb, hpost⟩ | ⟨hmay, hfx, hfy⟩ := hf a log' hmid
      · exact .inl ⟨b, log'', hxa.bind hxb, hya.bind hyb, hpost⟩
      · exact .inr ⟨hmay, .of_bind hxa hfx, .of_bind hya hfy⟩
    · exact .inr ⟨hmay, hfx.bind _, hfy.bind _⟩
  mono hpre h log hpre' := h log (hpre log hpre')

theorem lockstep_answers {search : Search κ (PlanM S)} {seed : UInt64} {order : List Nat} {threshold : κ}
    {other : PlanM S κ} {mayFail : Prop} {pre : List (Candidate κ) → Prop} {post : α → List (Candidate κ) → Prop}
    {next : κ → α}
    (h : ∀ log, pre log → ∃ found time, Yields I (search.evaluate seed order threshold) found ∧
      Yields I other time ∧ next found = next time ∧ post (next time) (⟨seed, order, found⟩ :: log)) :
    (lockstep κ I mayFail).Rel pre post (next <$> search.recorded.evaluate seed order threshold) (next <$> other) := by
  intro log hpre
  obtain ⟨found, time, hfound, htime, hnext, hpost⟩ := h log hpre
  refine .inl ⟨next time, ⟨seed, order, found⟩ :: log, ?_, htime.map next, hpost⟩
  rw [StateT.run_map, Search.run_evaluate_recorded, ← hnext]
  exact (hfound.map _).map _

end PlanM

namespace CostContext

variable {ctx : CostContext κ} {s : Session κ}

theorem Repeatable.yields {x : SessionM κ α} {a : α} (hx : ctx.Repeatable x.run) (h : x.result s = .ok a) :
    PlanM.Yields (ctx.Agree s) x a := by
  intro s' hagree
  have hsame : (x.run.run s').1 = .ok a := (hx.same hagree.symm).trans h
  exact ⟨(x.run.run s').2, Prod.ext hsame rfl, hagree.trans (hx.agree s')⟩

variable (ctx) in
/-- Both actions are repeatable; there is nothing to relate. -/
def repeating : Lockstep (SessionM κ) (SessionM κ) Unit where
  Rel _ _ x y := ctx.Repeatable x.run ∧ ctx.Repeatable y.run
  pure _ := ⟨.pure _, .pure _⟩
  bind hx hf := ⟨.bind_run hx.1 fun a => (hf a).1, .bind_run hx.2 fun a => (hf a).2⟩
  mono _ h := h

/-- A search whose evaluations and whose stop are repeatable is repeatable. -/
theorem repeatable_run [CostNumber κ] [RandomSource σ] {search : Search κ (SessionM κ)}
    (hstop : ctx.Repeatable search.stop.run)
    (h : ∀ seed order threshold, ctx.Repeatable (search.evaluate seed order threshold).run) (source : σ) :
    ctx.Repeatable (search.run.run source).run := by
  have hmap {α : Type} (next : κ → α) (seed : UInt64) (order : List Nat) (threshold : κ) :
      ctx.Repeatable (next <$> search.evaluate seed order threshold).run := by
    rw [map_eq_pure_bind]
    exact Repeatable.bind_run (h seed order threshold) fun _ => .pure _
  have hinvariant : search.Invariant (ctx.repeating.drawing σ) search.evaluate search.stop (fun _ _ _ _ => True)
      (fun _ _ _ _ => True) := {
    enter := fun _ _ => trivial
    perturb := fun _ {_ _ _} _ _ =>
      Search.lockstep_perturb (fun _ => ⟨hstop, hstop⟩) fun seed order _ => ⟨hmap _ .., hmap _ ..⟩
    cut := fun _ => trivial }
  have htrial (s : SearchState κ) : (ctx.repeating.drawing σ).Rel (fun _ => True) (fun _ _ => True) (search.trial s)
      (search.trial s) := Search.lockstep_trial fun seed order _ => ⟨hmap _ .., hmap _ ..⟩
  have hrun := hinvariant.run (fun _ => True) (I := fun _ _ => True) (fun _ _ => trivial) htrial fun _ _ _ => trivial
  exact (hrun source).1

end CostContext

end JoinPlanner
