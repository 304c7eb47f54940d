import JoinPlanner.Proofs.Decimal.Rounding
import Mathlib.Data.Prod.Lex
import Mathlib.Data.String.Basic

/-!
# The places of values

The total order of values is the order of their places in a linear order (`Value.compare_eq_place`):
first the class, then the number, then the text. What an order decides about values is so decided by
the places, and the three-valued comparison of two values of one class is the comparison of these.
-/

namespace JoinPlanner

/-- The place of a number: infinities and what is not a number have no units. -/
def Magnitude.place (m : Magnitude) : ℕ ×ₗ ℤ := toLex (m.rank, m.units)

/-- The place of a value; a value that is not a number has no rank among the numbers. -/
abbrev ValuePlace : Type := ℕ ×ₗ (ℕ ×ₗ ℤ) ×ₗ String

namespace Value

def number : Value → ℕ ×ₗ ℤ
  | bool b => toLex (0, if b then 1 else 0)
  | int n => (Magnitude.ofInt n.toInt).place
  | float x => (Magnitude.ofFloat x).place
  | date day => toLex (0, day.toInt)
  | null | text _ => toLex (0, 0)

def string : Value → String
  | text s => s
  | _ => ""

def place (v : Value) : ValuePlace := toLex (v.valueClass.rank, toLex (v.number, v.string))

variable {a b : Value}

theorem compare_place (a b : Value) : Ord.compare a.place b.place =
    (Ord.compare a.valueClass b.valueClass).then
      ((Ord.compare a.number b.number).then (Ord.compare a.string b.string)) := rfl

theorem compare_place_of_eq (hclass : a.valueClass = b.valueClass) (hstring : a.string = b.string) :
    Ord.compare a.place b.place = Ord.compare a.number b.number := by
  rw [compare_place, hclass, hstring]
  simp

theorem compare_eq_place (a b : Value) : Ord.compare a b = Ord.compare a.place b.place := by
  cases a <;> cases b <;> try rfl
  case bool.bool a b => cases a <;> cases b <;> rfl
  case int.int m n =>
    refine Eq.trans ?_ (compare_place_of_eq ?_ ?_).symm
    · exact (Magnitude.compare_ofInt m.toInt n.toInt).symm
    · rfl
    · rfl
  case int.float n x =>
    refine Eq.trans ?_ (compare_place_of_eq ?_ ?_).symm
    · exact compareIntFloat_eq n x
    · rfl
    · rfl
  case float.int x n =>
    refine Eq.trans ?_ (compare_place_of_eq ?_ ?_).symm
    · exact (congrArg Ordering.swap (compareIntFloat_eq n x)).trans Std.OrientedOrd.eq_swap.symm
    · rfl
    · rfl
  -- the other numbers are compared by their magnitudes, which are their places
  all_goals refine Eq.trans ?_ (compare_place_of_eq ?_ ?_).symm <;> rfl

theorem compare_swap (a b : Value) : (Ord.compare a b).swap = Ord.compare b a := by
  rw [compare_eq_place, compare_eq_place b a]
  exact Std.OrientedOrd.eq_swap.symm

/-- NULL comes first. -/
theorem compare_of_isNull (h : a.isNull = true) : Ord.compare a b = if b.isNull then .eq else .lt := by
  cases a <;> cases b <;> first | rfl | cases h

theorem compare_of_isNull_right (h : b.isNull = true) :
    Ord.compare a b = if a.isNull then .eq else .gt := by
  rw [← compare_swap, compare_of_isNull h]
  cases a.isNull <;> rfl

theorem compare_eq_iff : Ord.compare a b = .eq ↔ a.place = b.place := by
  rw [compare_eq_place, compare_eq_iff_eq]

theorem beq_iff : (a == b) = true ↔ a.place = b.place := by
  rw [← compare_eq_iff]
  exact beq_iff_eq (a := Ord.compare a b)

theorem isNull_congr (h : a.place = b.place) : a.isNull = b.isNull := by
  have hrank : a.valueClass.rank = b.valueClass.rank := congrArg (fun p => (ofLex p).1) h
  cases a <;> cases b <;> first | rfl | cases hrank

theorem isSame_comm (a b : Value) : isSame a b = isSame b a := by
  have hbeq : (a == b) = (b == a) := by
    rw [Bool.eq_iff_iff, beq_iff, beq_iff, eq_comm]
  have hclass : (a.valueClass == b.valueClass) = (b.valueClass == a.valueClass) := Bool.beq_comm
  unfold isSame
  rw [hbeq, hclass]
  cases a.isNull <;> cases b.isNull <;> rfl

theorem sqlCompare_swap (a b : Value) : sqlCompare a b = (sqlCompare b a).map Ordering.swap := by
  unfold sqlCompare
  rw [bne_comm, Bool.or_comm b.isNull, ← compare_swap b a]
  split <;> rfl

/-- A comparison that does not see NULL is unknown where the order of the values is. -/
theorem compareWith_eq_elim {op : Comparison} (h : op.seesNull = false) :
    compareWith op a b = (sqlCompare a b).elim null fun ord => bool (op.holds ord) := by
  unfold compareWith
  split
  · cases h
  · cases h
  · cases sqlCompare a b <;> rfl

theorem compareWith_of_isNull {op : Comparison} (h : b.isNull = true) (hop : op.seesNull = false) :
    compareWith op a b = null := by
  rw [compareWith_eq_elim hop, sqlCompare, h, Bool.or_true, Bool.true_or]
  rfl

theorem compareWith_swap (op : Comparison) (a b : Value) :
    compareWith op.swap a b = compareWith op b a := by
  cases hop : op.seesNull with
  | true =>
    cases op with
    | is => exact congrArg bool (isSame_comm a b)
    | isNot => exact congrArg (fun b => bool !b) (isSame_comm a b)
    | _ => cases hop
  | false =>
    have hswap : op.swap.seesNull = false := by cases op <;> exact hop
    rw [compareWith_eq_elim hswap, compareWith_eq_elim hop, sqlCompare_swap a b]
    cases sqlCompare b a with
    | none => rfl
    | some ord => exact congrArg bool (op.holds_swap ord)

end Value

end JoinPlanner
