import JoinPlanner.Proofs.Cost.Bounds
import JoinPlanner.Proofs.Predicate.Posed
import JoinPlanner.Proofs.Statistics.Profile
import Mathlib.Algebra.Order.Field.Basic
import Mathlib.Tactic.Linarith

/-!
# Facts are probabilities

A fact is found as the share of pairs of division points that agree, multiplied over its equalities, so what is
found is from 0 to 1 (`factProbability_mem`). So a store of probabilities is one also after the problem of a query
has been posed (`Query.sound_toProblem`).
-/

namespace JoinPlanner

open CostNumber (ofCount)

/-- The share of pairs of points that agree is a probability. -/
theorem share_mem {p q : ColumnProfile} (hp : p.isSampled = true) (hq : q.isSampled = true) :
    ∃ share : ℚ, (ofCount (p.matchingPoints q) : Exact) / ofCount (divisionPoints * divisionPoints) = share ∧
      0 ≤ share ∧ share ≤ 1 := by
  have hpos : (0 : ℚ) < (divisionPoints * divisionPoints : ℕ) := Nat.cast_pos.2 (by decide)
  refine ⟨(p.matchingPoints q : ℚ) / (divisionPoints * divisionPoints : ℕ), Exact.coe_div _ hpos.ne', ?_, ?_⟩
  · exact div_nonneg (Nat.cast_nonneg _) hpos.le
  · rw [div_le_one hpos]
    exact_mod_cast ColumnProfile.matchingPoints_le hp hq

theorem factProbability_mem {pairs : List (ColumnProfile × ColumnProfile)} {p : Exact}
    (h : factProbability pairs = some p) : 0 ≤ p ∧ p ≤ 1 := by
  unfold factProbability at h
  split at h
  case isTrue => cases h
  case isFalse hne =>
    obtain ⟨start, hstart, h0, h1⟩ : ∃ start : ℚ, (ofCount 1 : Exact) = start ∧ 0 ≤ start ∧ start ≤ 1 :=
      ⟨1, by rw [Exact.ofCount_eq, Nat.cast_one], zero_le_one, le_rfl⟩
    rw [hstart] at h
    clear hstart hne
    induction pairs generalizing start with
    | nil =>
      cases h
      exact ⟨WithTop.coe_nonneg.2 h0, WithTop.coe_le_one.2 h1⟩
    | cons pair pairs ih =>
      rw [List.foldlM_cons] at h
      obtain ⟨next, hnext, h⟩ := Option.bind_eq_some_iff.1 h
      dsimp only at hnext
      split at hnext
      case isFalse => cases hnext
      case isTrue hsampled =>
        obtain ⟨hp, hq⟩ := Bool.and_eq_true_iff.1 (Bool.and_eq_true_iff.1 hsampled).1
        obtain ⟨share, hshare, hshare0, hshare1⟩ := share_mem hp hq
        rw [hshare, ← WithTop.coe_mul] at hnext
        cases hnext
        exact ih (start * share) h (mul_nonneg h0 hshare0) (mul_le_one₀ h1 hshare0 hshare1)

namespace Statistics

variable {s : Statistics Exact}

theorem Probable.of_facts {s' : Statistics Exact} (h : s.Probable) (hfacts : s'.facts = s.facts) : s'.Probable := by
  intro key p hp
  rw [fact?, hfacts] at hp
  exact h key p hp

theorem Probable.cons (h : s.Probable) (key : FactKey) {probability : Option Exact}
    (hp : ∀ p, probability = some p → 0 ≤ p ∧ p ≤ 1) :
    Statistics.Probable { s with facts := (key, probability) :: s.facts } := by
  intro key' p hkey
  rw [fact?, List.lookup_cons] at hkey
  cases heq : key' == key with
  | true =>
    rw [heq] at hkey
    exact hp p hkey
  | false =>
    rw [heq] at hkey
    exact h key' p hkey

end Statistics

namespace StatisticsM

variable {α β : Type}

/-- The action leaves a store of probabilities one of probabilities, whatever it comes to. -/
def Sound (x : StatisticsM Exact α) : Prop := ∀ s : Statistics Exact, s.Probable → (x.run.run s).2.Probable

theorem Sound.probable {x : StatisticsM Exact α} (hx : Sound x) {s s' : Statistics Exact}
    {r : Except PlanError α} (h : x.run.run s = (r, s')) (hs : s.Probable) : s'.Probable := by
  have hafter := hx s hs
  rwa [h] at hafter

theorem sound_pure (a : α) : Sound (pure a) := fun _ h => h

theorem sound_ofExcept (x : Except PlanError α) : Sound (liftM x : StatisticsM Exact α) := by
  intro s h
  cases x <;> exact h

theorem Sound.bind {x : StatisticsM Exact α} {f : α → StatisticsM Exact β} (hx : Sound x) (hf : ∀ a, Sound (f a)) :
    Sound (x >>= f) := by
  intro s h
  have hafter := hx s h
  rw [ExceptT.run_bind, StateT.run_bind]
  rcases hr : x.run.run s with ⟨e | a, s'⟩ <;> rw [hr] at hafter
  · exact hafter
  · exact hf a s' hafter

theorem sound_mapM {f : α → StatisticsM Exact β} (hf : ∀ a, Sound (f a)) (l : List α) : Sound (l.mapM f) := by
  induction l with
  | nil => exact sound_pure _
  | cons a rest ih =>
    rw [List.mapM_cons]
    exact (hf a).bind fun _ => ih.bind fun _ => sound_pure _

theorem sound_column (catalog : Catalog) (c : ColumnRef) : Sound (Statistics.column catalog c) := by
  intro s h
  rw [Statistics.run_column]
  exact h.of_facts rfl

theorem sound_populateFact (catalog : Catalog) (key : FactKey) (pairs : List (ColumnRef × ColumnRef)) :
    Sound (Statistics.populateFact catalog key pairs) := by
  intro s h
  rw [Statistics.populateFact, run_get_bind]
  split
  · exact h
  · have hpair (pair : ColumnRef × ColumnRef) : Sound (do
        return (← Statistics.column catalog pair.1, ← Statistics.column catalog pair.2)) :=
      Sound.bind (sound_column _ _) fun _ => Sound.bind (sound_column _ _) fun _ => sound_pure _
    refine Sound.bind (sound_mapM hpair pairs) (fun profiles s h => ?_) s h
    exact h.cons key fun _ => factProbability_mem

theorem sound_factOf (m : AccessContext) (pairs : List (ColumnRef × ColumnRef)) : Sound (m.factOf pairs) := by
  unfold AccessContext.factOf
  refine Sound.bind (sound_mapM (fun _ => sound_ofExcept _) pairs) fun base => ?_
  dsimp only
  split
  · exact Sound.bind (Sound.bind (sound_populateFact _ _ _) fun _ => sound_pure _) fun _ => sound_pure _
  · exact sound_pure _

end StatisticsM

theorem AccessContext.sound_marked (m : AccessContext) (p : Predicate) : StatisticsM.Sound (m.marked p) := by
  intro s h
  have hkeeps : s.Probable → (((m.mark (κ := Exact)).run.run p).run s).2.Probable :=
    MarkM.keeps_mark (R := fun a b => a.2.Probable → b.2.Probable) (fun _ => id) (fun _ _ _ h h' => h' ∘ h) m
      p s (fun _ _ _ _ _ => id) (fun _ s pairs => StatisticsM.sound_factOf m pairs s)
  rw [marked, run_get_bind]
  generalize ((m.mark (κ := Exact)).run.run p).run s = marked at hkeeps ⊢
  obtain ⟨⟨e | u, q⟩, s'⟩ := marked
  · exact hkeeps h
  · exact hkeeps h

theorem Query.sound_toProblem (query : Query) (graph : JoinGraph) (context : AccessContext) :
    StatisticsM.Sound (query.toProblem graph context) := by
  refine StatisticsM.Sound.bind (StatisticsM.sound_mapM (fun p => ?_) _) fun predicates => ?_
  · exact StatisticsM.Sound.bind (StatisticsM.sound_ofExcept _) fun _ => context.sound_marked p
  · exact StatisticsM.Sound.bind (StatisticsM.sound_ofExcept _) fun _ => StatisticsM.sound_pure _

end JoinPlanner
