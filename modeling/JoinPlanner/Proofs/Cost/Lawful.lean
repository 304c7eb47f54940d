import JoinPlanner.Proofs.Cost.Exact

/-!
# Lawful cost numbers

What the search and the thresholds of the cost model rely on of their numbers, as it holds of floats and of
exact numbers alike: the order is total on numbers, a comparison with what is not a number is false, and a
number from 0 on is finite or infinity.
-/

namespace JoinPlanner

open CostNumber (ofCount infinity le lt isNumber isFinite)

class LawfulCostNumber (κ : Type) [CostNumber κ] : Prop where
  isNumber_of_le {a b : κ} : le a b = true → isNumber a = true ∧ isNumber b = true
  le_trans {a b c : κ} : le a b = true → le b c = true → le a c = true
  le_total {a b : κ} : isNumber a = true → isNumber b = true → le a b = true ∨ le b a = true
  le_infinity {a : κ} : isNumber a = true → le a infinity = true
  isNumber_ofCount (n : Nat) : isNumber (ofCount n : κ) = true
  isNumber_of_isFinite {a : κ} : isFinite a = true → isNumber a = true
  isFinite_infinity : isFinite (infinity : κ) = false
  isFinite_or_of_zero_le {a : κ} : le (ofCount 0) a = true → isFinite a = true ∨ a = infinity

instance : LawfulCostNumber Exact where
  isNumber_of_le _ := ⟨decide_eq_true le_rfl, decide_eq_true le_rfl⟩
  le_trans h h' := decide_eq_true ((of_decide_eq_true h).trans (of_decide_eq_true h'))
  le_total {a b} _ _ := (le_total a b).imp decide_eq_true decide_eq_true
  le_infinity _ := decide_eq_true le_top
  isNumber_ofCount _ := decide_eq_true le_rfl
  isNumber_of_isFinite _ := decide_eq_true le_rfl
  isFinite_infinity := decide_eq_false fun h => h rfl
  isFinite_or_of_zero_le {a} _ := by
    by_cases h : a = ⊤
    · exact .inr h
    · exact .inl (decide_eq_true h)

/-- What is found of a time up to a threshold: the time, or infinity if it exceeds the threshold. -/
def IsAnswer {κ : Type} [CostNumber κ] (threshold time found : κ) : Prop :=
  found = time ∨ found = infinity ∧ lt threshold time = true

theorem CostNumber.le_of_lt {κ : Type} [CostNumber κ] {a b : κ} (h : lt a b = true) : le a b = true :=
  (Bool.and_eq_true_iff.1 h).1

namespace LawfulCostNumber

variable {κ : Type} [CostNumber κ] [LawfulCostNumber κ]

theorem le_refl_of_isFinite {a : κ} (h : isFinite a = true) : le a a = true := isNumber_of_isFinite h

theorem lt_of_lt_of_le {a b c : κ} (hab : lt a b = true) (hbc : le b c = true) : lt a c = true := by
  obtain ⟨hle, hnot⟩ := Bool.and_eq_true_iff.1 hab
  refine Bool.and_eq_true_iff.2 ⟨le_trans hle hbc, ?_⟩
  cases hca : le c a with
  | false => rfl
  | true => rw [le_trans hbc hca] at hnot; exact hnot

/-- Nothing takes longer than infinity, so an infinite threshold gives nothing up. -/
theorem infinity_lt (a : κ) : lt infinity a = false := by
  rw [lt, Bool.and_eq_false_iff]
  by_cases h : le infinity a = true
  · have hle : le a infinity = true := le_infinity (isNumber_of_le h).2
    exact .inr (by rw [hle]; rfl)
  · exact .inl (Bool.eq_false_iff.2 h)

end LawfulCostNumber

end JoinPlanner
