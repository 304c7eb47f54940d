import JoinPlanner.Random.Draw
import Mathlib.Tactic.SplitIfs

/-!
# Outcomes of draws

Whatever the source: a draw below a positive bound is below it (`longBelow_lt`), a shuffle is a
permutation (`shuffle_perm`), and a choice from a list is one of its members (`mem_of_choose?`).
-/

namespace JoinPlanner.Draw

variable {σ α : Type}

theorem scaled_lt {bits w n : Nat} (hw : w < Nat.pow 2 bits) (hn : 0 < n) : (w * n) >>> bits < n := by
  rw [Nat.shiftRight_eq_div_pow, Nat.div_lt_iff_lt_mul (Nat.two_pow_pos bits), Nat.mul_comm n]
  exact Nat.mul_lt_mul_of_pos_right hw hn

theorem below_go_lt {bits n : Nat} {word : Draw σ Nat} (hw : ∀ s, (word.run s).1 < Nat.pow 2 bits)
    (hn : 0 < n) (attempts : Nat) (s : σ) : ((below.go bits word n attempts).run s).1 < n := by
  induction attempts generalizing s with
  | zero => exact scaled_lt (hw s) hn
  | succ attempts ih =>
    show ((if (word.run s).1 * n % (1 <<< bits) < below.zone bits n then
        pure (((word.run s).1 * n) >>> bits) else below.go bits word n attempts).run
          (word.run s).2).1 < n
    split
    · exact scaled_lt (hw s) hn
    · exact ih _

theorem below_lt {bits n : Nat} {word : Draw σ Nat} (hw : ∀ s, (word.run s).1 < Nat.pow 2 bits)
    (hn : 0 < n) (s : σ) : ((below bits word n).run s).1 < n :=
  below_go_lt hw hn maxRejections s

theorem swapIfInBounds_perm (a : Array α) (i j : Nat) :
    (a.swapIfInBounds i j).toList.Perm a.toList := by
  by_cases h : i < a.size ∧ j < a.size
  · rw [Array.swapIfInBounds_def, dif_pos h.1, dif_pos h.2]
    exact Array.perm_iff_toList_perm.1 (Array.swap_perm h.1 h.2)
  · have : a.swapIfInBounds i j = a := by
      rw [Array.swapIfInBounds_def]; split_ifs <;> simp_all
    rw [this]

variable [RandomSource σ]

theorem longBelow_lt {n : Nat} (hn : 0 < n) (s : σ) : ((longBelow n : Draw σ Nat).run s).1 < n :=
  have hword (s : σ) : ((return (← longWord).toNat : Draw σ Nat).run s).1 < Nat.pow 2 64 :=
    (longWord.run s).1.toNat_lt
  below_lt hword hn s

theorem shuffleFrom_perm (n : Nat) (a : Array α) (s : σ) :
    ((shuffleFrom n a).run s).1.toList.Perm a.toList := by
  induction n generalizing a s with
  | zero => exact .refl _
  | succ n ih => exact (ih _ _).trans (swapIfInBounds_perm a _ _)

theorem shuffle_perm (l : List α) (s : σ) : ((shuffle l).run s).1.Perm l :=
  shuffleFrom_perm (l.length - 1) l.toArray s

theorem mem_of_choose? {l : List α} {s : σ} {a : α} (h : ((choose? l).run s).1 = some a) :
    a ∈ l := by
  unfold choose? at h
  split at h
  · cases h
  · exact List.mem_of_getElem? h

end JoinPlanner.Draw
