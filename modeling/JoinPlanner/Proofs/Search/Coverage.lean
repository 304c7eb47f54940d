import JoinPlanner.Proofs.Search.Step

/-!
# What the beam covers

The candidates have true times, and the search gets answers that are true or, past a threshold, infinite. Such
an answer leads where the true time leads (`afterTrial_answer`, `afterPerturbation_answer`). After every step the
beam covers what was evaluated (`Beam.Covers`): each candidate of a finite time is matched by an entry that is no
slower, although the beam is cut, candidates are given up and duplicates are turned away.
-/

namespace JoinPlanner

open CostNumber (infinity le lt isNumber isFinite)

variable {κ : Type} [CostNumber κ]

/-- Of a beam, and of a record of what was evaluated: the beam is in order, its entries are from the record, and
every candidate of the record with a finite time has an entry that is no slower. -/
structure Beam.Covers (predicates : Nat) (time : UInt64 → List Nat → κ) (beam log : List (Candidate κ)) : Prop where
  sorted : beam.Pairwise Candidate.Before
  finite : ∀ b ∈ beam, isFinite b.cost = true
  cost : ∀ b ∈ beam, b.cost = time b.seed b.order
  recorded : ∀ b ∈ beam, ∃ c ∈ log, c.seed = b.seed ∧ c.order = b.order
  perm : ∀ c ∈ log, c.order.Perm (List.range predicates)
  least : ∀ c ∈ log, isFinite (time c.seed c.order) = true → ∃ b ∈ beam, le b.cost (time c.seed c.order) = true

namespace Beam.Covers

open LawfulCostNumber (le_refl_of_isFinite)

variable {predicates : Nat} {time : UInt64 → List Nat → κ} {beam log : List (Candidate κ)}

theorem nil : Covers predicates time [] [] where
  sorted := .nil
  finite _ h := absurd h List.not_mem_nil
  cost _ h := absurd h List.not_mem_nil
  recorded _ h := absurd h List.not_mem_nil
  perm _ h := absurd h List.not_mem_nil
  least _ h := absurd h List.not_mem_nil

theorem order_perm (h : Covers predicates time beam log) {b : Candidate κ} (hb : b ∈ beam) :
    b.order.Perm (List.range predicates) := by
  obtain ⟨c, hc, -, horder⟩ := h.recorded b hb
  exact horder ▸ h.perm c hc

/-- A candidate that is not kept is covered all the same if an entry is no slower. -/
theorem turnedAway (h : Covers predicates time beam log) {c : Candidate κ}
    (hperm : c.order.Perm (List.range predicates))
    (hc : isFinite (time c.seed c.order) = true → ∃ b ∈ beam, le b.cost (time c.seed c.order) = true) :
    Covers predicates time beam (c :: log) where
  sorted := h.sorted
  finite := h.finite
  cost := h.cost
  recorded b hb := by
    obtain ⟨c', hc', heq⟩ := h.recorded b hb
    exact ⟨c', .tail _ hc', heq⟩
  perm := List.forall_mem_cons.2 ⟨hperm, h.perm⟩
  least := List.forall_mem_cons.2 ⟨hc, h.least⟩

variable [LawfulCostNumber κ]

/-- The first entry is no slower than any other. -/
theorem head_le (h : Covers predicates time beam log) {first : Candidate κ} (hfirst : beam.head? = some first)
    {b : Candidate κ} (hb : b ∈ beam) : le first.cost b.cost = true := by
  obtain ⟨rest, rfl⟩ := List.head?_eq_some_iff.1 hfirst
  rcases List.mem_cons.1 hb with rfl | hb
  · exact le_refl_of_isFinite (h.finite b List.mem_cons_self)
  · exact ((List.pairwise_cons.1 h.sorted).1 b hb).1

theorem take (h : Covers predicates time beam log) {n : Nat} (hn : 0 < n) :
    Covers predicates time (beam.take n) log where
  sorted := h.sorted.sublist (List.take_sublist n beam)
  finite b hb := h.finite b (List.mem_of_mem_take hb)
  cost b hb := h.cost b (List.mem_of_mem_take hb)
  recorded b hb := h.recorded b (List.mem_of_mem_take hb)
  perm := h.perm
  least c hc hfinite := by
    obtain ⟨b, hb, hle⟩ := h.least c hc hfinite
    obtain ⟨first, hfirst⟩ := Option.ne_none_iff_exists'.1 (mt List.head?_eq_none_iff.1 (List.ne_nil_of_mem hb))
    have htake : (beam.take n).head? = some first := by rw [List.head?_take, if_neg hn.ne', hfirst]
    exact ⟨first, List.mem_of_head? htake, LawfulCostNumber.le_trans (h.head_le hfirst hb) hle⟩

variable {seed : UInt64} {order : List Nat} (hperm : order.Perm (List.range predicates)) (found : κ)
include hperm

/-- A candidate that is infinite or a duplicate. -/
theorem of_insertInto_eq_none (h : Covers predicates time beam log)
    (hinsert : Candidate.insertInto ⟨seed, order, time seed order⟩ beam = none) :
    Covers predicates time beam (⟨seed, order, found⟩ :: log) := by
  refine h.turnedAway hperm fun hfinite => ?_
  rcases Candidate.insertInto_eq_none.1 hinsert with hinfinite | ⟨b, hb, hdup⟩
  · rw [hinfinite] at hfinite
    cases hfinite
  · obtain ⟨hseed, ⟨hle, -⟩ | horder⟩ := Candidate.isDuplicate_iff.1 hdup
    · exact ⟨b, hb, hle⟩
    · have heq : b.cost = time seed order := by rw [h.cost b hb, hseed, horder]
      refine ⟨b, hb, ?_⟩
      rw [heq]
      exact le_refl_of_isFinite hfinite

theorem of_insertInto_eq_some (h : Covers predicates time beam log) {place : Nat} {beam' : List (Candidate κ)}
    (hinsert : Candidate.insertInto ⟨seed, order, time seed order⟩ beam = some (place, beam')) :
    Covers predicates time beam' (⟨seed, order, found⟩ :: log) := by
  have hmem (b : Candidate κ) : b ∈ beam' ↔ b = ⟨seed, order, time seed order⟩ ∨ b ∈ beam := by
    rw [(Candidate.perm_of_insertInto hinsert).mem_iff, List.mem_cons]
  have hfinite := (Candidate.insertInto_eq_some.1 hinsert).1
  have hnumber : ∀ b ∈ beam, isNumber b.cost = true := fun b hb => le_refl_of_isFinite (h.finite b hb)
  refine ⟨Candidate.sorted_insertInto h.sorted hnumber hinsert, fun b hb => ?_, fun b hb => ?_, fun b hb => ?_,
    List.forall_mem_cons.2 ⟨hperm, h.perm⟩, List.forall_mem_cons.2 ⟨fun _ => ?_, fun c hc hfinite => ?_⟩⟩
  · rcases (hmem b).1 hb with rfl | hb
    · exact hfinite
    · exact h.finite b hb
  · rcases (hmem b).1 hb with rfl | hb
    · rfl
    · exact h.cost b hb
  · rcases (hmem b).1 hb with rfl | hb
    · exact ⟨_, .head _, rfl, rfl⟩
    · obtain ⟨c, hc, heq⟩ := h.recorded b hb
      exact ⟨c, .tail _ hc, heq⟩
  · exact ⟨_, (hmem _).2 (.inl rfl), le_refl_of_isFinite hfinite⟩
  · obtain ⟨b, hb, hle⟩ := h.least c hc hfinite
    exact ⟨b, (hmem b).2 (.inr hb), hle⟩

end Beam.Covers

namespace Search

variable {m : Type → Type} (search : Search κ m) {s : SearchState κ}

variable [LawfulCostNumber κ] {predicates : Nat} {time : UInt64 → List Nat → κ} {log : List (Candidate κ)}
  {seed : UInt64} {order : List Nat} {found : κ}

theorem afterTrial_answer (h : Beam.Covers predicates time s.beam log)
    (hfound : IsAnswer ((search.trialThreshold s.beam).getD infinity) (time seed order) found) :
    search.afterTrial s ⟨seed, order, found⟩ = search.afterTrial s ⟨seed, order, time seed order⟩ := by
  obtain rfl | ⟨rfl, hlt⟩ := hfound
  · rfl
  · cases hthreshold : search.trialThreshold s.beam with
    | none =>
      rw [hthreshold, Option.getD_none, LawfulCostNumber.infinity_lt] at hlt
      cases hlt
    | some threshold =>
      obtain ⟨b, hb, rfl⟩ := mem_of_trialThreshold hthreshold
      rw [hthreshold, Option.getD_some] at hlt
      have hle : le b.cost infinity = true :=
        LawfulCostNumber.le_infinity (LawfulCostNumber.isNumber_of_isFinite (h.finite b hb))
      have hle' : le b.cost (time seed order) = true := CostNumber.le_of_lt hlt
      simp only [afterTrial, hthreshold, Option.any_some, hle, hle', if_true]

theorem covers_afterTrial (h : Beam.Covers predicates time s.beam log)
    (hperm : order.Perm (List.range predicates)) : Beam.Covers predicates time
      (search.afterTrial s ⟨seed, order, time seed order⟩).beam (⟨seed, order, found⟩ :: log) := by
  unfold afterTrial
  dsimp only
  split
  · next hany =>
    obtain ⟨threshold, hthreshold, hle⟩ := (Option.any_eq_true ..).1 hany
    obtain ⟨b, hb, rfl⟩ := mem_of_trialThreshold hthreshold
    exact h.turnedAway hperm fun _ => ⟨b, hb, hle⟩
  · cases hinsert : Candidate.insertInto ⟨seed, order, time seed order⟩ s.beam with
    | none => exact h.of_insertInto_eq_none hperm found hinsert
    | some inserted => exact (h.of_insertInto_eq_some hperm found hinsert).take search.capacity_pos

end Search

namespace SearchState

variable [LawfulCostNumber κ] {s : SearchState κ} {base : Candidate κ} {rank : Nat} {predicates : Nat}
  {time : UInt64 → List Nat → κ} {log : List (Candidate κ)} {seed : UInt64} {order : List Nat} {found : κ}

theorem afterPerturbation_answer (h : Beam.Covers predicates time s.beam log) (hbase : base ∈ s.beam)
    (hfound : IsAnswer base.cost (time seed order) found) :
    s.afterPerturbation base rank ⟨seed, order, found⟩ =
      s.afterPerturbation base rank ⟨seed, order, time seed order⟩ := by
  obtain rfl | ⟨rfl, hlt⟩ := hfound
  · rfl
  · have hle : le base.cost infinity = true :=
      LawfulCostNumber.le_infinity (LawfulCostNumber.isNumber_of_isFinite (h.finite base hbase))
    have hle' : le base.cost (time seed order) = true := CostNumber.le_of_lt hlt
    simp only [afterPerturbation, hle, hle', if_true]

theorem covers_afterPerturbation (h : Beam.Covers predicates time s.beam log) (hbase : base ∈ s.beam)
    (hperm : order.Perm (List.range predicates)) : Beam.Covers predicates time
      (s.afterPerturbation base rank ⟨seed, order, time seed order⟩).2.beam (⟨seed, order, found⟩ :: log) := by
  unfold afterPerturbation
  dsimp only
  split
  · next hle => exact h.turnedAway hperm fun _ => ⟨base, hbase, hle⟩
  · cases hinsert : Candidate.insertInto ⟨seed, order, time seed order⟩ s.beam with
    | none => exact h.of_insertInto_eq_none hperm found hinsert
    | some inserted => exact h.of_insertInto_eq_some hperm found hinsert

end SearchState

end JoinPlanner
