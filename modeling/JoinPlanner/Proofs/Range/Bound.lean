import JoinPlanner.Proofs.Value.Order
import JoinPlanner.Range.Bound
import Mathlib.Data.List.Lex
import Mathlib.Order.Compare

/-!
# The places of bounds and keys

Bounds of keys of one width and the keys themselves lie in one linear order, a key between the bound
before it and the bound after it (`KeyBound.compares_place`, `KeyBound.compares_key`). A key that is
longer than the width has the place of its beginning. An interval holds the keys whose places lie
between those of its bounds (`KeyInterval.contains_iff`); the intersection of two intervals holds the
keys in both, and the hull of two that meet the keys in either.
-/

namespace JoinPlanner

/-- The order of pairs is that of their first parts unless these are the same. -/
theorem compares_toLex {α β : Type} [LinearOrder α] [LinearOrder β] {o o' : Ordering} {x x' : α} {y y' : β}
    (h : o.Compares x x') (h' : x = x' → o'.Compares y y') :
    (o.then o').Compares (toLex (x, y)) (toLex (x', y')) := by
  cases o with
  | lt => exact Prod.Lex.toLex_lt_toLex.2 (.inl h)
  | gt => exact Prod.Lex.toLex_lt_toLex.2 (.inl h)
  | eq =>
    obtain rfl : x = x' := h
    cases o' with
    | lt => exact Prod.Lex.toLex_lt_toLex.2 (.inr ⟨rfl, h' rfl⟩)
    | gt => exact Prod.Lex.toLex_lt_toLex.2 (.inr ⟨rfl, h' rfl⟩)
    | eq => exact congrArg (fun y => toLex (x, y)) (h' rfl)

theorem compares_cons {α : Type} [LinearOrder α] {o o' : Ordering} {x x' : α} {l l' : List α}
    (h : o.Compares x x') (h' : x = x' → o'.Compares l l') : (o.then o').Compares (x :: l) (x' :: l') := by
  cases o with
  | lt => exact List.cons_lt_cons_iff.2 (.inl h)
  | gt => exact List.cons_lt_cons_iff.2 (.inl h)
  | eq =>
    obtain rfl : x = x' := h
    cases o' with
    | lt => exact List.cons_lt_cons_iff.2 (.inr ⟨rfl, h' rfl⟩)
    | gt => exact List.cons_lt_cons_iff.2 (.inr ⟨rfl, h' rfl⟩)
    | eq => exact congrArg (x :: ·) (h' rfl)

theorem Value.compares_place (a b : Value) : (Ord.compare a b).Compares a.place b.place := by
  rw [compare_eq_place]
  exact (compare_iff _ _).1 rfl

abbrev KeyPlace : Type := ℕ ×ₗ List ValuePlace ×ₗ ℕ

namespace Key

/-- The places of the first `w` values of a key. -/
def places (w : ℕ) (key : Key) : List ValuePlace := (key.take w).map Value.place

def place (w : ℕ) (key : Key) : KeyPlace := toLex (1, toLex (key.places w, 2))

variable {w : ℕ} {a b : Key}

theorem compares_places (ha : w ≤ a.length) (hb : w ≤ b.length) (h : w = a.length ∨ w = b.length) :
    (Key.compare a b).Compares (a.places w) (b.places w) := by
  induction w generalizing a b with
  | zero =>
    have hnil : a = [] ∨ b = [] := by simpa [eq_comm] using h
    rcases hnil with rfl | rfl
    · rfl
    · cases a <;> rfl
  | succ w ih =>
    match a, b with
    | x :: a, y :: b =>
      simp only [List.length_cons, Nat.add_le_add_iff_right, Nat.add_right_cancel_iff] at ha hb h
      exact compares_cons (Value.compares_place x y) fun _ => ih ha hb h

end Key

namespace KeyBound

/-- The least place above that of NULL. -/
def aboveNull : ValuePlace := toLex (0, toLex (toLex (0, 1), ""))

theorem place_lt_aboveNull {v : Value} : v.place < aboveNull ↔ v.isNull = true := by
  cases v <;> simp [Value.place, aboveNull, Prod.Lex.toLex_lt_toLex, Value.valueClass, ValueClass.rank,
    Value.number, Value.isNull]

theorem aboveNull_lt_place {v : Value} : aboveNull < v.place ↔ v.isNull = false := by
  cases v <;> simp [Value.place, aboveNull, Prod.Lex.toLex_lt_toLex, Value.valueClass, ValueClass.rank,
    Value.number, Value.isNull]

/-- The place of a bound among keys of width `w`; `first` lies between the keys that begin with NULL
and all others. -/
def place (w : ℕ) : KeyBound → KeyPlace
  | beforeFirst => toLex (0, toLex ([], 0))
  | first => toLex (1, toLex ([aboveNull].take w, 0))
  | before key => toLex (1, toLex (key.places w, 1))
  | after key => toLex (1, toLex (key.places w, 3))
  | last => toLex (2, toLex ([], 0))
  | afterLast => toLex (3, toLex ([], 0))

def HasWidth (w : ℕ) (b : KeyBound) : Prop := ∀ key ∈ b.key?, key.length = w

variable {w : ℕ} {a b : KeyBound} {key : Key}

theorem HasWidth.ite {c : Prop} [Decidable c] (ha : a.HasWidth w) (hb : b.HasWidth w) :
    (if c then a else b).HasWidth w := by
  split
  · exact ha
  · exact hb

/-- No key lies at a bound. -/
theorem place_ne : b.place w ≠ key.place w := by
  cases b <;> simp [place, Key.place]

theorem key_lt_key {l l' : List ValuePlace} {i j : ℕ} (h : l < l') :
    (toLex (1, toLex (l, i)) : KeyPlace) < toLex (1, toLex (l', j)) := by
  simp [Prod.Lex.toLex_lt_toLex, h]

/-- Among keys of no values, `first` comes before all. -/
theorem compares_first {i : ℕ} (hi : 0 < i) (hk : w ≤ key.length) (hnil : w = 0 → key = []) :
    (if Key.beginsWithNull key then Ordering.gt else .lt).Compares (first.place w)
      (toLex (1, toLex (key.places w, i))) := by
  match w, key with
  | 0, key =>
    rw [hnil rfl]
    simp [Key.beginsWithNull, place, Key.places, Prod.Lex.toLex_lt_toLex, hi]
  | w + 1, x :: key =>
    rw [Key.beginsWithNull]
    cases hx : x.isNull with
    | true => exact key_lt_key (List.cons_lt_cons_iff.2 (.inl (place_lt_aboveNull.2 hx)))
    | false => exact key_lt_key (List.cons_lt_cons_iff.2 (.inl (aboveNull_lt_place.2 hx)))

theorem compares_first_of_length {i : ℕ} (hi : 0 < i) (hk : key.length = w) :
    (if Key.beginsWithNull key then Ordering.gt else .lt).Compares (first.place w)
      (toLex (1, toLex (key.places w, i))) :=
  compares_first hi hk.ge fun hw => List.length_eq_zero_iff.1 (hk.trans hw)

theorem compares_first_swap {i : ℕ} (hi : 0 < i) (hk : key.length = w) :
    (if Key.beginsWithNull key then Ordering.lt else .gt).Compares (toLex (1, toLex (key.places w, i)))
      (first.place w) := by
  have h := Ordering.compares_swap.2 (compares_first_of_length hi hk)
  rwa [apply_ite Ordering.swap] at h

theorem compares_keys {a b : Key} {i j : ℕ} {o : Ordering} (ha : a.length = w) (hb : w ≤ b.length)
    (h : o.Compares i j) : ((Key.compare a b).then o).Compares
      (toLex (1, toLex (a.places w, i)) : KeyPlace) (toLex (1, toLex (b.places w, j))) :=
  compares_toLex (o := .eq) rfl fun _ =>
    compares_toLex (Key.compares_places ha.ge hb (.inl ha.symm)) fun _ => h

theorem compares_place (ha : a.HasWidth w) (hb : b.HasWidth w) :
    (a.compare b).Compares (a.place w) (b.place w) := by
  cases a <;> cases b
  case before.before a b =>
    have := compares_keys (i := 1) (j := 1) (o := .eq) (ha a rfl) (hb b rfl).ge rfl
    rwa [Ordering.then_eq] at this
  case after.after a b =>
    have := compares_keys (i := 3) (j := 3) (o := .eq) (ha a rfl) (hb b rfl).ge rfl
    rwa [Ordering.then_eq] at this
  case before.after a b => exact compares_keys (ha a rfl) (hb b rfl).ge (by simp)
  case after.before a b => exact compares_keys (ha a rfl) (hb b rfl).ge (by simp)
  case first.before b => exact compares_first_of_length (by simp) (hb b rfl)
  case first.after b => exact compares_first_of_length (by simp) (hb b rfl)
  case before.first a => exact compares_first_swap (by simp) (ha a rfl)
  case after.first a => exact compares_first_swap (by simp) (ha a rfl)
  all_goals simp [KeyBound.compare, place, Prod.Lex.toLex_lt_toLex]

theorem compares_key_of_nil (hnil : w = 0 → key = []) (hb : b.HasWidth w) (hk : w ≤ key.length) :
    (b.compareKey key).Compares (b.place w) (key.place w) := by
  cases b
  case first => exact compares_first (by simp) hk hnil
  case before b => exact compares_keys (hb b rfl) hk (by simp)
  case after b => exact compares_keys (hb b rfl) hk (by simp)
  all_goals simp [compareKey, place, Key.place, Prod.Lex.toLex_lt_toLex]

theorem compares_key (hw : 0 < w) (hb : b.HasWidth w) (hk : w ≤ key.length) :
    (b.compareKey key).Compares (b.place w) (key.place w) :=
  compares_key_of_nil (fun h => absurd h hw.ne') hb hk

theorem compares_key_of_length (hb : b.HasWidth w) (hk : key.length = w) :
    (b.compareKey key).Compares (b.place w) (key.place w) :=
  compares_key_of_nil (fun hw => List.length_eq_zero_iff.1 (hk.trans hw)) hb hk.ge

end KeyBound

namespace KeyInterval

structure HasWidth (w : ℕ) (i : KeyInterval) : Prop where
  lower : i.lower.HasWidth w
  upper : i.upper.HasWidth w

variable {w : ℕ} {i j : KeyInterval} {key : Key}

theorem contains_iff (hw : 0 < w) (hi : i.HasWidth w) (hk : w ≤ key.length) :
    i.contains key = true ↔ i.lower.place w < key.place w ∧ key.place w < i.upper.place w := by
  simp only [contains, Bool.and_eq_true, beq_iff_eq]
  rw [(KeyBound.compares_key hw hi.lower hk).eq_lt, (KeyBound.compares_key hw hi.upper hk).eq_gt]

/-- Of a longer key only its beginning counts. -/
theorem contains_take (hw : 0 < w) (hi : i.HasWidth w) (hk : w ≤ key.length) :
    i.contains (key.take w) = i.contains key := by
  have hplace : Key.place w (key.take w) = key.place w := by
    rw [Key.place, Key.places, List.take_take, Nat.min_self]
    rfl
  rw [Bool.eq_iff_iff, contains_iff hw hi (by simpa using hk), contains_iff hw hi hk, hplace]

theorem isEmpty_iff (hi : i.HasWidth w) :
    i.isEmpty = true ↔ i.upper.place w ≤ i.lower.place w := by
  simp only [isEmpty, bne_iff_ne]
  rw [(KeyBound.compares_place hi.lower hi.upper).ne_lt]

theorem meets_iff (hi : i.HasWidth w) (hj : j.HasWidth w) : i.meets j = true ↔
    i.lower.place w ≤ j.upper.place w ∧ j.lower.place w ≤ i.upper.place w := by
  simp only [meets, Bool.and_eq_true, bne_iff_ne]
  rw [(KeyBound.compares_place hi.lower hj.upper).ne_gt,
    (KeyBound.compares_place hj.lower hi.upper).ne_gt]

theorem not_contains_of_isEmpty (hw : 0 < w) (hi : i.HasWidth w) (hk : w ≤ key.length)
    (h : i.isEmpty = true) : i.contains key = false := by
  rw [isEmpty_iff hi] at h
  rw [← Bool.not_eq_true, contains_iff hw hi hk]
  rintro ⟨hl, hu⟩
  exact absurd (hl.trans hu) (not_lt.2 h)

/-! ### Intersection and hull -/

theorem HasWidth.inter (hi : i.HasWidth w) (hj : j.HasWidth w) : (i.inter j).HasWidth w :=
  ⟨.ite hj.lower hi.lower, .ite hj.upper hi.upper⟩

theorem HasWidth.hull (hi : i.HasWidth w) (hj : j.HasWidth w) : (i.hull j).HasWidth w :=
  ⟨.ite hj.lower hi.lower, .ite hj.upper hi.upper⟩

section
variable {a b : KeyBound}

theorem place_greater (ha : a.HasWidth w) (hb : b.HasWidth w) :
    (if b.compare a == .gt then b else a).place w = max (a.place w) (b.place w) := by
  have h := KeyBound.compares_place hb ha
  simp only [beq_iff_eq]
  split
  · next hgt => exact (max_eq_right (h.eq_gt.1 hgt).le).symm
  · next hle => exact (max_eq_left (h.ne_gt.1 hle)).symm

theorem place_less (ha : a.HasWidth w) (hb : b.HasWidth w) :
    (if b.compare a == .lt then b else a).place w = min (a.place w) (b.place w) := by
  have h := KeyBound.compares_place hb ha
  simp only [beq_iff_eq]
  split
  · next hlt => exact (min_eq_right (h.eq_lt.1 hlt).le).symm
  · next hge => exact (min_eq_left (h.ne_lt.1 hge)).symm

end

theorem lower_inter (hi : i.HasWidth w) (hj : j.HasWidth w) :
    (i.inter j).lower.place w = max (i.lower.place w) (j.lower.place w) :=
  place_greater hi.lower hj.lower

theorem upper_inter (hi : i.HasWidth w) (hj : j.HasWidth w) :
    (i.inter j).upper.place w = min (i.upper.place w) (j.upper.place w) :=
  place_less hi.upper hj.upper

theorem lower_hull (hi : i.HasWidth w) (hj : j.HasWidth w) :
    (i.hull j).lower.place w = min (i.lower.place w) (j.lower.place w) :=
  place_less hi.lower hj.lower

theorem upper_hull (hi : i.HasWidth w) (hj : j.HasWidth w) :
    (i.hull j).upper.place w = max (i.upper.place w) (j.upper.place w) :=
  place_greater hi.upper hj.upper

theorem contains_inter (hw : 0 < w) (hi : i.HasWidth w) (hj : j.HasWidth w) (hk : w ≤ key.length) :
    (i.inter j).contains key = (i.contains key && j.contains key) := by
  rw [Bool.eq_iff_iff, Bool.and_eq_true, contains_iff hw (hi.inter hj) hk, contains_iff hw hi hk,
    contains_iff hw hj hk, lower_inter hi hj, upper_inter hi hj, max_lt_iff, lt_min_iff]
  tauto

theorem contains_hull (hw : 0 < w) (hi : i.HasWidth w) (hj : j.HasWidth w) (hk : w ≤ key.length)
    (h : j.meets i = true) : (i.hull j).contains key = (i.contains key || j.contains key) := by
  rw [Bool.eq_iff_iff, Bool.or_eq_true, contains_iff hw (hi.hull hj) hk, contains_iff hw hi hk,
    contains_iff hw hj hk, lower_hull hi hj, upper_hull hi hj, min_lt_iff, lt_max_iff]
  rw [meets_iff hj hi] at h
  obtain ⟨hji, hij⟩ := h
  constructor
  · rintro ⟨hl | hl, hu | hu⟩
    · exact .inl ⟨hl, hu⟩
    · rcases lt_or_ge (j.lower.place w) (key.place w) with hlt | hge
      · exact .inr ⟨hlt, hu⟩
      · exact .inl ⟨hl, lt_of_le_of_ne (hge.trans hji) KeyBound.place_ne.symm⟩
    · rcases lt_or_ge (i.lower.place w) (key.place w) with hlt | hge
      · exact .inl ⟨hlt, hu⟩
      · exact .inr ⟨hl, lt_of_le_of_ne (hge.trans hij) KeyBound.place_ne.symm⟩
    · exact .inr ⟨hl, hu⟩
  · rintro (⟨hl, hu⟩ | ⟨hl, hu⟩)
    · exact ⟨.inl hl, .inl hu⟩
    · exact ⟨.inr hl, .inr hu⟩

end KeyInterval

end JoinPlanner
