import JoinPlanner.Candidate.Build
import Mathlib.Logic.Basic

/-!
# The choice of a predicate

`mem_splits`: the choices are the pending predicates, each with all others. `mem_of_chooseReady` and
`not_ready_of_chooseReady`: what is chosen is pending and ready, and nothing is chosen only if no
pending predicate is ready.
-/

namespace JoinPlanner.Predicate

theorem mem_splitsAfter {p : Predicate} {others before pending : List Predicate} :
    (p, others) ∈ splitsAfter before pending ↔
      ∃ front back, pending = front ++ p :: back ∧ others = before ++ front ++ back := by
  induction pending generalizing before with
  | nil => simp [splitsAfter]
  | cons q rest ih =>
    rw [splitsAfter, List.mem_cons, ih]
    constructor
    · rintro (h | ⟨front, back, rfl, rfl⟩)
      · obtain ⟨rfl, rfl⟩ := Prod.mk.inj h
        exact ⟨[], rest, rfl, by simp⟩
      · exact ⟨q :: front, back, rfl, by simp⟩
    · rintro ⟨_ | ⟨r, front⟩, back, h, rfl⟩
      · obtain ⟨rfl, rfl⟩ := List.cons.inj h
        exact .inl (by simp)
      · obtain ⟨rfl, rfl⟩ := List.cons.inj h
        exact .inr ⟨front, back, rfl, by simp⟩

theorem mem_splits {p : Predicate} {others pending : List Predicate} :
    (p, others) ∈ splits pending ↔
      ∃ front back, pending = front ++ p :: back ∧ others = front ++ back := by
  rw [splits, mem_splitsAfter]; simp

theorem perm_of_mem_splits {p : Predicate} {others pending : List Predicate}
    (h : (p, others) ∈ splits pending) : pending.Perm (p :: others) := by
  obtain ⟨front, back, rfl, rfl⟩ := mem_splits.1 h
  exact List.perm_middle

theorem length_of_mem_splits {p : Predicate} {others pending : List Predicate}
    (h : (p, others) ∈ splits pending) : pending.length = others.length + 1 :=
  (perm_of_mem_splits h).length_eq

theorem exists_mem_splits {p : Predicate} {pending : List Predicate} (h : p ∈ pending) :
    ∃ others, (p, others) ∈ splits pending := by
  obtain ⟨front, back, rfl⟩ := List.append_of_mem h
  exact ⟨front ++ back, mem_splits.2 ⟨front, back, rfl, rfl⟩⟩

variable {σ : Type} [RandomSource σ] {fragments : List Fragment}
  {fallback : Option (Predicate × List Predicate)} {choices : List (Predicate × List Predicate)}

theorem chooseReady_cons_run {p : Predicate} {others : List Predicate}
    (ready : p.isReady fragments others = true) (s : σ) :
    (chooseReady fragments fallback ((p, others) :: choices)).run s =
      (if (Draw.coin.run s).1 then pure (some (p, others))
        else chooseReady fragments (fallback <|> some (p, others)) choices : Draw σ _).run
        (Draw.coin.run s).2 := by
  rw [chooseReady, if_pos ready]
  rfl

theorem mem_of_chooseReady {x : Predicate × List Predicate} {s : σ}
    (h : ((chooseReady fragments fallback choices).run s).1 = some x) :
    fallback = some x ∨ x ∈ choices ∧ x.1.isReady fragments x.2 = true := by
  induction choices generalizing fallback s with
  | nil => exact .inl h
  | cons y rest ih =>
    obtain ⟨p, others⟩ := y
    by_cases ready : p.isReady fragments others = true
    · have here : some (p, others) = some x →
          x ∈ (p, others) :: rest ∧ x.1.isReady fragments x.2 = true := by
        rintro ⟨⟩
        exact ⟨.head _, ready⟩
      rw [chooseReady_cons_run ready] at h
      split at h
      · exact .inr (here h)
      · rcases ih h with hf | ⟨hx, hr⟩
        · cases fallback with
          | none => exact .inr (here hf)
          | some y => exact .inl hf
        · exact .inr ⟨.tail _ hx, hr⟩
    · rw [chooseReady, if_neg ready] at h
      exact (ih h).imp_right fun ⟨hx, hr⟩ => ⟨.tail _ hx, hr⟩

theorem not_ready_of_chooseReady {s : σ}
    (h : ((chooseReady fragments fallback choices).run s).1 = none) :
    fallback = none ∧ ∀ x ∈ choices, ¬ x.1.isReady fragments x.2 = true := by
  induction choices generalizing fallback s with
  | nil => exact ⟨h, by simp⟩
  | cons y rest ih =>
    obtain ⟨p, others⟩ := y
    by_cases ready : p.isReady fragments others = true
    · rw [chooseReady_cons_run ready] at h
      split at h
      · cases h
      · obtain ⟨hf, -⟩ := ih h
        cases fallback <;> cases hf
    · rw [chooseReady, if_neg ready] at h
      obtain ⟨hf, hr⟩ := ih h
      exact ⟨hf, List.forall_mem_cons.2 ⟨ready, hr⟩⟩

end JoinPlanner.Predicate
