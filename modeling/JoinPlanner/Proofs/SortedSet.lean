import JoinPlanner.SortedSet

/-!
# Membership in sorted sets

Membership lemmas for the set operations that are defined without one.
-/

namespace JoinPlanner.SortedSet

variable {α : Type} [Ord α]

@[simp] theorem mem_singleton {a x : α} : x ∈ singleton a ↔ x = a := List.mem_singleton

theorem isEmpty_iff {s : SortedSet α} : s.isEmpty = true ↔ ∀ a, a ∉ s := by
  rw [isEmpty, List.isEmpty_iff, List.eq_nil_iff_forall_not_mem]
  exact Iff.rfl

theorem isEmpty_eq_false_iff {s : SortedSet α} : s.isEmpty = false ↔ ∃ a, a ∈ s := by
  rw [← Bool.not_eq_true, isEmpty_iff]
  exact ⟨fun h => Classical.byContradiction fun hn => h fun a ha => hn ⟨a, ha⟩, fun ⟨a, ha⟩ h => h a ha⟩

section
variable [Std.LawfulEqOrd α]

theorem isDisjoint_eq_false_iff {s t : SortedSet α} : s.isDisjoint t = false ↔ ∃ a ∈ s, a ∈ t := by
  rw [← Bool.not_eq_true, isDisjoint_iff]
  exact ⟨fun h => Classical.byContradiction fun hn => h fun a ha ht => hn ⟨a, ha, ht⟩,
    fun ⟨a, ha, ht⟩ h => h a ha ht⟩

variable [Std.TransOrd α]

theorem mem_foldl_union {x : α} {sets : List (SortedSet α)} {s : SortedSet α} :
    x ∈ sets.foldl (· ∪ ·) s ↔ x ∈ s ∨ ∃ t ∈ sets, x ∈ t := by
  induction sets generalizing s with
  | nil => simp
  | cons t rest ih =>
    rw [List.foldl_cons, ih, mem_union]
    simp [or_assoc]

@[simp] theorem mem_unions {x : α} {sets : List (SortedSet α)} :
    x ∈ unions sets ↔ ∃ t ∈ sets, x ∈ t := by
  rw [unions, mem_foldl_union]
  simp

end

end JoinPlanner.SortedSet
