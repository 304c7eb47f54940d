import JoinPlanner.Proofs.Expr.SimplifySound

/-!
# Comparisons across classes

SQL compares values of one class. The bounds of a range lie in the total order, where the classes follow one
another, so that the range of a comparison holds, besides the values of which the comparison is true, every
value of another class that stands so to the constant by its class alone (`Value.Stray`). A filter that
simplification turns into a range term accepts such a row, where the comparison is unknown
(`Expr.simplify_compare_accepts_iff`).
-/

namespace JoinPlanner

namespace Value

variable {op : Comparison} {x k : Value}

/-- The comparison with `k` has no answer of `x`, but the order of their classes has. -/
def Stray (op : Comparison) (x k : Value) : Prop :=
  x.isNull = false ∧ k.isNull = false ∧ x.valueClass ≠ k.valueClass ∧
    op.holds (Ord.compare x.valueClass k.valueClass) = true

instance : Decidable (Stray op x k) := inferInstanceAs (Decidable (_ ∧ _))

theorem compare_of_class_ne (h : x.valueClass ≠ k.valueClass) :
    Ord.compare x k = Ord.compare x.valueClass k.valueClass := by
  cases x <;> cases k <;> first | rfl | exact absurd rfl h

/-- A test for sameness is decided across classes, and of the other comparisons only equality strays nowhere. -/
theorem compareWith_of_class_ne (hx : x.isNull = false) (hk : k.isNull = false)
    (h : x.valueClass ≠ k.valueClass) :
    compareWith op x k = if op.seesNull then bool (op == .isNot) else null := by
  have hclass : (x.valueClass == k.valueClass) = false := beq_eq_false_iff_ne.2 h
  cases op <;> simp [compareWith, sqlCompare, isSame, Comparison.seesNull, hx, hk, hclass, bne]

theorem not_stray_of_isEquality (h : op.isEquality = true) : ¬Stray op x k := by
  rintro ⟨-, -, hclass, hholds⟩
  have heq : Ord.compare x.valueClass k.valueClass = .eq := by
    cases op <;> first | exact eq_of_beq hholds | cases h
  exact hclass (Std.LawfulEqOrd.eq_of_compare heq)

/-- The comparison is true of a value that strays only if it is `isNot`. -/
theorem Stray.compareWith_iff (h : Stray op x k) : compareWith op x k = bool true ↔ op = .isNot := by
  have heq : ¬op.isEquality = true := fun hop => not_stray_of_isEquality hop h
  rw [compareWith_of_class_ne h.1 h.2.1 h.2.2.1]
  cases op <;> simp [Comparison.seesNull, Comparison.isEquality] at heq ⊢

end Value

/-- The range of a comparison holds the values of which the comparison is true, and those that stray. -/
theorem KeyRange.contains_comparing_iff {op : Comparison} {x k : Value}
    (h : k.isNull = true → op.seesNull = true) :
    (comparing op [k]).contains [x] = true ↔ Value.compareWith op x k = .bool true ∨ Value.Stray op x k := by
  by_cases hclass : k.isNull = false → x.isNull = true ∨ x.valueClass = k.valueClass
  · have hstray : ¬Value.Stray op x k := fun hs => by
      rcases hclass hs.2.1 with hx | hx
      · rw [hs.1] at hx
        cases hx
      · exact hs.2.2.1 hx
    rw [compareWith_eq h hclass, or_iff_left hstray]
    -- a range that holds the value is that of a comparison which sees it
    have hsees : (comparing op [k]).contains [x] = true → (op.seesNull || !x.isNull) = true := fun hin => by
      rw [contains_comparing h, Bool.and_eq_true] at hin
      exact hin.2
    split
    · simp
    · next hnot => exact ⟨fun hin => absurd (hsees hin) hnot, nofun⟩
  · simp only [not_forall, not_or, Bool.not_eq_true] at hclass
    obtain ⟨hk, hx, hclass⟩ := hclass
    rw [contains_comparing h, Value.compare_of_class_ne hclass, Value.compareWith_of_class_ne hx hk hclass]
    cases op <;> simp [Value.Stray, Comparison.seesNull, Comparison.holds, hx, hk, hclass]

namespace Expr

variable {op : Comparison} {c : ColumnRef} {k : Value}

/-- What the range of a comparison holds, and so what the simple form of the comparison accepts: the values
of which it is true, and those of other classes that stray. Both agree with it exactly where none strays,
or the comparison is `isNot`. -/
theorem simplify_compare_accepts_iff (h : k.isNull = true → op.seesNull = true) :
    ∃ r, KeyRange.ofComparison op [k] = .ok r ∧
      (∀ x, (r.contains [x] = true ↔ Value.compareWith op x k = .bool true ∨ Value.Stray op x k) ∧
        ((r.contains [x] = true ↔ Value.compareWith op x k = .bool true) ↔
          (Value.Stray op x k → op = .isNot))) ∧
      ∀ (c : ColumnRef) (row : ColumnRef → Value) (call : String → List Value → Value),
        (compare op (column c) (literal k)).simplify.evalIn (.ofRow row call) = some (.bool true) ↔
          (compare op (column c) (literal k)).evalIn (.ofRow row call) = some (.bool true) ∨
            Value.Stray op (row c) k := by
  have hcontains (x : Value) := KeyRange.contains_comparing_iff (x := x) h
  refine ⟨.comparing op [k], rfl, fun x => ⟨hcontains x, ?_⟩, fun c row call => ?_⟩
  · rw [hcontains x]
    constructor
    · exact fun hagree hstray => hstray.compareWith_iff.1 (hagree.1 (.inr hstray))
    · exact fun hop => or_iff_left_of_imp fun hstray => hstray.compareWith_iff.2 (hop hstray)
  · have hvalue : (compare op (column c) (literal k)).evalIn (.ofRow row call) =
        some (Value.compareWith op (row c) k) := evalIn_compare rfl rfl
    rw [simplify_compare_literal h, hvalue, Option.some_inj, ← hcontains (row c)]
    exact is_rangeOrTruth rfl

/-- A truth value comes before every number, and so into the range of the numbers below 5. -/
theorem simplify_compare_accepts_iff_bool :
    (∃ r, KeyRange.ofComparison .lt [.int 5] = .ok r ∧ r.contains [.bool true] = true ∧
      Value.compareWith .lt (.bool true) (.int 5) = .null) ∧
    (compare .lt (column ⟨⟨none, "t"⟩, "x"⟩) (literal (.int 5))).simplify.evalIn
      (.ofRow (fun _ => .bool true) fun _ _ => .null) = some (.bool true) := by
  have hsees : (Value.int 5).isNull = true → Comparison.lt.seesNull = true := nofun
  obtain ⟨r, hr, hcontains, haccepts⟩ := simplify_compare_accepts_iff hsees
  have hstray : Value.Stray .lt (.bool true) (.int 5) := by decide
  exact ⟨⟨r, hr, (hcontains _).1.2 (.inr hstray), rfl⟩, (haccepts _ _ _).2 (.inr hstray)⟩

end Expr

end JoinPlanner
