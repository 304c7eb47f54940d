import JoinPlanner.Proofs.Cost.Lawful
import JoinPlanner.Search.Beam
import Mathlib.Data.List.Perm.Basic
import Mathlib.Data.List.TakeWhile

/-!
# The beam in order

To insert a candidate adds it and nothing else (`perm_of_insertInto`), unless it has no finite cost or is there
already (`insertInto_eq_none`), and leaves a beam that is in ascending order so (`sorted_insertInto`). The order
is that of cost and seed (`Candidate.Before`); the first entry of a beam is then its cheapest.
-/

namespace JoinPlanner

open CostNumber (le lt isNumber isFinite)

namespace Candidate

variable {κ : Type} [CostNumber κ] {a b c : Candidate κ} {beam beam' : List (Candidate κ)} {place : Nat}

theorem isDuplicate_iff : a.isDuplicate b = true ↔
    a.seed = b.seed ∧ ((le a.cost b.cost = true ∧ le b.cost a.cost = true) ∨ a.order = b.order) := by
  simp [isDuplicate]

theorem insertInto_eq_none :
    c.insertInto beam = none ↔ isFinite c.cost = false ∨ ∃ b ∈ beam, b.isDuplicate c = true := by
  rw [insertInto, ← List.any_eq_true]
  cases isFinite c.cost <;> cases beam.any (·.isDuplicate c) <;> simp

theorem insertInto_eq_some : c.insertInto beam = some (place, beam') ↔
    isFinite c.cost = true ∧ (∀ b ∈ beam, b.isDuplicate c = false) ∧
      place = (beam.takeWhile fun b => b.compare c == .lt).length ∧
      beam' = (beam.takeWhile fun b => b.compare c == .lt) ++ c :: beam.dropWhile fun b => b.compare c == .lt := by
  have hdrop : beam.drop (beam.takeWhile fun b => b.compare c == .lt).length =
      beam.dropWhile fun b => b.compare c == .lt := by
    have hsplit := List.takeWhile_append_dropWhile (p := fun b : Candidate κ => b.compare c == .lt) (l := beam)
    exact (congrArg (List.drop _) hsplit.symm).trans List.drop_left
  have hdup : beam.any (·.isDuplicate c) = false ↔ ∀ b ∈ beam, b.isDuplicate c = false := by
    rw [List.any_eq_false]
    simp only [Bool.not_eq_true]
  rw [insertInto, ← hdup, ← hdrop]
  cases isFinite c.cost <;> cases beam.any (·.isDuplicate c) <;> simp [eq_comm]

theorem perm_of_insertInto (h : c.insertInto beam = some (place, beam')) : beam'.Perm (c :: beam) := by
  obtain ⟨-, -, -, rfl⟩ := insertInto_eq_some.1 h
  refine List.perm_middle.trans (.cons c ?_)
  rw [List.takeWhile_append_dropWhile]

/-- An entry that is not before the place moves to the next rank. -/
theorem getElem?_of_insertInto {rank : Nat} (h : c.insertInto beam = some (place, beam')) (hle : place ≤ rank) :
    beam'[rank + 1]? = beam[rank]? := by
  obtain ⟨-, -, rfl, rfl⟩ := insertInto_eq_some.1 h
  have hsplit := List.takeWhile_append_dropWhile (p := fun b : Candidate κ => b.compare c == .lt) (l := beam)
  rw [List.getElem?_append_right (Nat.le_succ_of_le hle), Nat.succ_sub hle, List.getElem?_cons_succ,
    ← List.getElem?_append_right hle, hsplit]

/-- The order of the beam: by cost, then by seed. -/
def Before (a b : Candidate κ) : Prop := le a.cost b.cost = true ∧ (le b.cost a.cost = true → a.seed ≤ b.seed)

variable [LawfulCostNumber κ]

theorem Before.trans (hab : a.Before b) (hbc : b.Before c) : a.Before c := by
  refine ⟨LawfulCostNumber.le_trans hab.1 hbc.1, fun hca => ?_⟩
  have hba : le b.cost a.cost = true := LawfulCostNumber.le_trans hbc.1 hca
  have hcb : le c.cost b.cost = true := LawfulCostNumber.le_trans hca hab.1
  exact UInt64.le_trans (hab.2 hba) (hbc.2 hcb)

theorem compare_eq_lt_iff (ha : isNumber a.cost = true) (hb : isNumber b.cost = true) :
    a.compare b = .lt ↔ ¬ b.Before a := by
  have htotal : le a.cost b.cost = true ∨ le b.cost a.cost = true := LawfulCostNumber.le_total ha hb
  unfold Candidate.compare CostNumber.order Before
  cases hab : le a.cost b.cost <;> cases hba : le b.cost a.cost <;>
    simp_all [Ordering.then, Std.compare_eq_lt]

theorem before_of_not (ha : isNumber a.cost = true) (hb : isNumber b.cost = true) (h : ¬ b.Before a) :
    a.Before b := by
  by_cases hba : le b.cost a.cost = true
  · have hseed : ¬ b.seed ≤ a.seed := fun hle => h ⟨hba, fun _ => hle⟩
    have hab : le a.cost b.cost = true := by
      by_contra hab
      exact h ⟨hba, fun hle => absurd hle hab⟩
    exact ⟨hab, fun _ => (UInt64.le_total a.seed b.seed).resolve_right hseed⟩
  · exact ⟨(LawfulCostNumber.le_total ha hb).resolve_right hba, fun hle => absurd hle hba⟩

theorem place_le_of_before {rank : Nat} (h : c.insertInto beam = some (place, beam')) (ha : beam[rank]? = some a)
    (hnumber : isNumber a.cost = true) (hbefore : c.Before a) : place ≤ rank := by
  obtain ⟨hfinite, -, rfl, -⟩ := insertInto_eq_some.1 h
  by_contra hlt
  rw [Nat.not_le] at hlt
  obtain ⟨hrank, rfl⟩ := List.getElem?_eq_some_iff.1 ha
  have hlt' : beam[rank].compare c = .lt := by
    have hmem := List.getElem_mem hlt
    rw [(List.takeWhile_prefix _).getElem] at hmem
    have hp := List.mem_takeWhile_imp hmem
    exact eq_of_beq hp
  exact (compare_eq_lt_iff hnumber (LawfulCostNumber.isNumber_of_isFinite hfinite)).1 hlt' hbefore

theorem sorted_insertInto (hsorted : beam.Pairwise Before) (hnumber : ∀ b ∈ beam, isNumber b.cost = true)
    (h : c.insertInto beam = some (place, beam')) : beam'.Pairwise Before := by
  obtain ⟨hfinite, -, -, rfl⟩ := insertInto_eq_some.1 h
  have hc : isNumber c.cost = true := LawfulCostNumber.isNumber_of_isFinite hfinite
  rw [← List.takeWhile_append_dropWhile (p := fun b : Candidate κ => b.compare c == .lt) (l := beam),
    List.pairwise_append] at hsorted
  obtain ⟨hfirst, hrest, hacross⟩ := hsorted
  have hbefore : ∀ b ∈ beam.takeWhile fun b => b.compare c == .lt, b.Before c := by
    intro b hb
    have hlt : b.compare c = .lt := by
      have hp := List.mem_takeWhile_imp hb
      exact eq_of_beq hp
    have hn : isNumber b.cost = true := hnumber b ((List.takeWhile_sublist _).subset hb)
    exact before_of_not hn hc ((compare_eq_lt_iff hn hc).1 hlt)
  have hafter : ∀ b ∈ beam.dropWhile fun b => b.compare c == .lt, c.Before b := by
    have hn : ∀ b ∈ beam.dropWhile fun b => b.compare c == .lt, isNumber b.cost = true := fun b hb =>
      hnumber b ((List.dropWhile_sublist _).subset hb)
    have hhead := List.head_dropWhile_not (fun b : Candidate κ => b.compare c == .lt) (l := beam)
    generalize (beam.dropWhile fun b => b.compare c == .lt) = rest at hn hhead hrest
    cases rest with
    | nil => exact fun b hb => absurd hb List.not_mem_nil
    | cons first rest =>
      -- the first entry that does not come before `c` comes after it, and the others come after that one
      have hfirst : c.Before first := by
        by_contra hnot
        have hlt := (compare_eq_lt_iff (hn first List.mem_cons_self) hc).2 hnot
        have hnlt := hhead (List.cons_ne_nil _ _)
        rw [List.head_cons, hlt] at hnlt
        cases hnlt
      intro b hb
      rcases List.mem_cons.1 hb with rfl | hb
      · exact hfirst
      · exact hfirst.trans ((List.pairwise_cons.1 hrest).1 b hb)
  refine List.pairwise_append.2 ⟨hfirst, List.pairwise_cons.2 ⟨hafter, hrest⟩, fun a ha b hb => ?_⟩
  rcases List.mem_cons.1 hb with rfl | hb
  · exact hbefore a ha
  · exact hacross a ha b hb

end Candidate

end JoinPlanner
