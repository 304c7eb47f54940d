import JoinPlanner.Proofs.Value.Order
import JoinPlanner.Range.Basic

/-!
# Equality of key ranges

Ranges are equal when they have the same bounds, the values of these compared by their places; so the integer
4 and the float 4.0 make equal ranges. This is an equivalence, and equal ranges hold the same keys
(`KeyRange.contains_congr`).
-/

namespace JoinPlanner

theorem list_beq_iff {α β : Type} [BEq α] {f : α → β} (h : ∀ a b, (a == b) = true ↔ f a = f b) {l m : List α} :
    (l == m) = true ↔ l.map f = m.map f := by
  induction l generalizing m with
  | nil => cases m <;> simp
  | cons a l ih => cases m <;> simp [h, ih]

namespace Key

variable {a b : Key}

theorem beq_iff : (a == b) = true ↔ a.map Value.place = b.map Value.place :=
  list_beq_iff fun _ _ => Value.beq_iff

theorem compare_congr (h : a.map Value.place = b.map Value.place) (key : Key) :
    Key.compare a key = Key.compare b key := by
  induction a generalizing b key with
  | nil =>
    obtain rfl : b = [] := by simpa using h.symm
    rfl
  | cons x a ih =>
    match b, key with
    | y :: b, [] => rfl
    | y :: b, z :: key =>
      simp only [List.map_cons, List.cons.injEq] at h
      rw [Key.compare, Key.compare, ih h.2, Value.compare_eq_place, Value.compare_eq_place y, h.1]

end Key

namespace KeyBound

variable {a b : KeyBound}

/-- What equality compares: the kind of a bound, and the places of its values. -/
def view : KeyBound → ℕ × List ValuePlace
  | beforeFirst => (0, [])
  | first => (1, [])
  | before key => (2, key.map Value.place)
  | after key => (3, key.map Value.place)
  | last => (4, [])
  | afterLast => (5, [])

theorem beq_iff : (a == b) = true ↔ a.view = b.view := by
  cases a <;> cases b
  case before.before a b => exact Key.beq_iff.trans (by simp [view])
  case after.after a b => exact Key.beq_iff.trans (by simp [view])
  case beforeFirst.beforeFirst | first.first | last.last | afterLast.afterLast => exact iff_of_true rfl rfl
  all_goals exact iff_of_false nofun (by simp [view])

theorem compareKey_congr (h : a.view = b.view) (key : Key) : a.compareKey key = b.compareKey key := by
  cases a <;> cases b
  case before.before a b => rw [compareKey, compareKey, Key.compare_congr (Prod.mk.inj h).2]
  case after.after a b => rw [compareKey, compareKey, Key.compare_congr (Prod.mk.inj h).2]
  case beforeFirst.beforeFirst | first.first | last.last | afterLast.afterLast => rfl
  all_goals exact absurd (Prod.mk.inj h).1 (by decide)

end KeyBound

namespace KeyInterval

def view (i : KeyInterval) : (ℕ × List ValuePlace) × ℕ × List ValuePlace := (i.lower.view, i.upper.view)

theorem beq_iff {i j : KeyInterval} : (i == j) = true ↔ i.view = j.view :=
  Bool.and_eq_true_iff.trans ((and_congr KeyBound.beq_iff KeyBound.beq_iff).trans (by simp [view]))

theorem any_contains_congr {l m : List KeyInterval} (h : l.map view = m.map view) (key : Key) :
    l.any (·.contains key) = m.any (·.contains key) := by
  induction l generalizing m with
  | nil =>
    obtain rfl : m = [] := by simpa using h.symm
    rfl
  | cons i l ih =>
    cases m with
    | nil => cases h
    | cons j m =>
      obtain ⟨hhead, htail⟩ := List.cons.inj h
      obtain ⟨hlower, hupper⟩ := Prod.mk.inj hhead
      rw [List.any_cons, List.any_cons, ih htail, contains, contains, KeyBound.compareKey_congr hlower,
        KeyBound.compareKey_congr hupper]

end KeyInterval

namespace KeyRange

variable {r s : KeyRange}

theorem beq_iff : (r == s) = true ↔ r.width = s.width ∧
    r.intervals.map KeyInterval.view = s.intervals.map KeyInterval.view :=
  Bool.and_eq_true_iff.trans (and_congr beq_iff_eq (list_beq_iff fun _ _ => KeyInterval.beq_iff))

instance : EquivBEq KeyRange where
  rfl := beq_iff.2 ⟨rfl, rfl⟩
  symm h := beq_iff.2 ⟨(beq_iff.1 h).1.symm, (beq_iff.1 h).2.symm⟩
  trans h h' := beq_iff.2 ⟨(beq_iff.1 h).1.trans (beq_iff.1 h').1, (beq_iff.1 h).2.trans (beq_iff.1 h').2⟩

/-- Equal ranges hold the same keys, of whatever length. -/
theorem contains_congr (h : (r == s) = true) (key : Key) : r.contains key = s.contains key :=
  KeyInterval.any_contains_congr (beq_iff.1 h).2 key

theorem isEmpty_congr (h : (r == s) = true) : r.isEmpty = s.isEmpty := by
  have hlength := congrArg List.length (beq_iff.1 h).2
  rw [List.length_map, List.length_map] at hlength
  rw [Bool.eq_iff_iff, isEmpty, isEmpty, List.isEmpty_iff_length_eq_zero, List.isEmpty_iff_length_eq_zero, hlength]

end KeyRange

end JoinPlanner
