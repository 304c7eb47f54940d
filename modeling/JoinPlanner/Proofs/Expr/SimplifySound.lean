import JoinPlanner.Proofs.Expr.JunctionSound
import JoinPlanner.Proofs.Expr.SimplifyChecked
import JoinPlanner.Proofs.Expr.SimplifyColumns
import Mathlib.Data.List.Forall2

/-!
# Soundness of simplification

A filter without negations and its simple form accept the same rows (`Expr.simplify_accepts`): a comparison
that is unknown becomes a range term that is false, and a row is kept in neither case. Below a negation
this makes a difference. What is known of a filter with negations stays so
(`Expr.simplify_decides`), but a comparison below a negation may be decided anew of a NULL
(`ColumnTest.Blurred`, `Expr.simplify_not_compare`), and the row be accepted by the simple form alone.
-/

namespace JoinPlanner

/-- The valuation of a row and of the functions known by name only. -/
def Valuation.ofRow (row : ColumnRef → Value) (call : String → List Value → Value) : Valuation :=
  ⟨fun c => some (row c), fun name values => some (call name values)⟩

theorem Valuation.total_ofRow (row : ColumnRef → Value) (call : String → List Value → Value) :
    (ofRow row call).Total := ⟨fun _ => ⟨_, rfl⟩, fun _ _ => ⟨_, rfl⟩⟩

namespace Expr

variable {v : Valuation} {b : Bool} {e : Expr} {es : List Expr} {j : Junction}

theorem simplify_apply (op : FunctionOp) (args : List Expr) :
    (apply op args).simplify = (apply op (args.map simplify)).simplifyNode := simplify_eq (apply op args)

theorem evalIn_apply_congr {op : FunctionOp} {es' : List Expr} (h : ∀ range, op ≠ .inRange range)
    (hes : es.map (evalIn v) = es'.map (evalIn v)) : (apply op es).evalIn v = (apply op es').evalIn v := by
  rw [evalIn_apply h, evalIn_apply h, evalList_congr hes]

/-- What simplification keeps of a scalar term. -/
structure SameScalar (e e' : Expr) : Prop where
  scalar : e'.IsScalar
  evalIn : ∀ v, e'.evalIn v = e.evalIn v
  isStatic : e'.isStatic = e.isStatic
  column? : e'.column? = e.column?

theorem isStatic_foldConstant : e.foldConstant.isStatic = e.isStatic := by
  unfold foldConstant constant?
  split
  · next h =>
    split at h
    · next hstatic => rw [hstatic, isStatic]
    · cases h
  · rfl

theorem isStatic_apply (op : FunctionOp) (es : List Expr) : (apply op es).isStatic = es.all isStatic := by
  have hlist : isStaticList es = es.all isStatic := by
    induction es with
    | nil => rfl
    | cons e rest ih => rw [isStaticList, ih, List.all_cons]
  rw [isStatic, hlist]

theorem SameScalar.foldConstant {e' : Expr} (h : SameScalar e e') (hcolumn : e'.column? = none) :
    SameScalar e e'.foldConstant := by
  refine ⟨?_, fun v => ?_, ?_, ?_⟩
  · unfold Expr.foldConstant
    split
    · exact .literal _
    · exact h.scalar
  · rw [evalIn_foldConstant, h.evalIn]
  · rw [isStatic_foldConstant, h.isStatic]
  · rw [← h.column?, hcolumn]
    unfold Expr.foldConstant
    split
    · rfl
    · exact hcolumn

theorem SameScalar.apply {op : FunctionOp} {args : List Expr} (h : ∀ range, op ≠ .inRange range)
    (hargs : ∀ e ∈ args, SameScalar e e.simplify) (hscalar : (apply op (args.map Expr.simplify)).IsScalar) :
    SameScalar (apply op args) (apply op (args.map Expr.simplify)) := by
  refine ⟨hscalar, fun v => evalIn_apply_congr h ?_, ?_, rfl⟩
  · rw [List.map_map]
    exact List.map_congr_left fun e he => (hargs e he).evalIn v
  · rw [isStatic_apply, isStatic_apply, List.all_map, Bool.eq_iff_iff, List.all_eq_true, List.all_eq_true]
    exact forall₂_congr fun e he => by rw [Function.comp, (hargs e he).isStatic]

theorem IsScalar.simplify (h : e.IsScalar) : SameScalar e e.simplify := by
  induction h with
  | column c => exact ⟨.column c, fun _ => rfl, rfl, rfl⟩
  | literal x => exact ⟨.literal x, fun _ => rfl, rfl, rfl⟩
  | arith op hl hr ihl ihr =>
    rw [simplify_apply]
    refine SameScalar.foldConstant (.apply (by simp) ?_ (.arith op ihl.scalar ihr.scalar)) rfl
    simpa using ⟨ihl, ihr⟩
  | call name h ih =>
    rw [simplify_apply]
    refine SameScalar.foldConstant (.apply (by simp) ih (.call name ?_)) rfl
    simpa using fun e he => (ih e he).scalar

theorem SameScalar.constant? {e' : Expr} (h : SameScalar e e') : e'.constant? = e.constant? := by
  rw [Expr.constant?, Expr.constant?, h.isStatic, eval, eval, h.evalIn]

theorem columnComparison?_simplify {op : Comparison} {left right : Expr} (hl : left.IsScalar)
    (hr : right.IsScalar) :
    columnComparison? op left.simplify right.simplify = columnComparison? op left right := by
  rw [columnComparison?, columnComparison?, hl.simplify.column?, hr.simplify.column?, hl.simplify.constant?,
    hr.simplify.constant?]

theorem evalIn_of_constant? {x : Value} (h : e.constant? = some x) : e.evalIn v = some x := by
  unfold constant? at h
  split at h
  · exact evalIn_of_eval h
  · cases h

/-- A comparison of a column with a constant is that of the column's value with it. -/
theorem evalIn_of_columnComparison? {op op' : Comparison} {left right : Expr} {c : ColumnRef} {k x : Value}
    (h : columnComparison? op left right = some (c, op', k)) (hx : v.column c = some x) :
    (compare op left right).evalIn v = some (Value.compareWith op' x k) := by
  unfold columnComparison? at h
  split at h
  · next c' k' hl hr =>
    obtain ⟨rfl, rfl, rfl⟩ : c' = c ∧ op = op' ∧ k' = k := by simpa using h
    obtain rfl := eq_column_of_column? hl
    exact evalIn_compare hx (evalIn_of_constant? hr)
  · split at h
    · next k' c' hl hr =>
      obtain ⟨rfl, rfl, rfl⟩ : c' = c ∧ op.swap = op' ∧ k' = k := by simpa using h
      obtain rfl := eq_column_of_column? hr
      rw [Value.compareWith_swap]
      exact evalIn_compare (evalIn_of_constant? hl) hx
    · cases h

/-! ### Filters -/

/-- The filters made by conjunction and disjunction of literals and comparisons of scalar terms; with
negations if they are allowed. -/
inductive IsFilter (negations : Bool) : Expr → Prop
  | literal (x : Value) : IsFilter negations (literal x)
  | compare (op : Comparison) {left right : Expr} (hl : left.IsScalar) (hr : right.IsScalar) :
      IsFilter negations (compare op left right)
  | junction (j : Junction) {es : List Expr} (h : ∀ e ∈ es, IsFilter negations e) :
      IsFilter negations (apply j.op es)
  | not (hn : negations = true) {e : Expr} (h : IsFilter negations e) : IsFilter negations (Expr.not e)

theorem IsFilter.known {negations : Bool} (hv : v.Total) (h : e.IsFilter negations) : e.Known v := by
  induction h with
  | literal x => exact ⟨x, rfl⟩
  | compare op hl hr =>
    obtain ⟨x, hx⟩ := hl.known hv
    obtain ⟨y, hy⟩ := hr.known hv
    exact ⟨_, evalIn_compare hx hy⟩
  | junction j h ih => exact known_junction ih
  | not hn h ih =>
    obtain ⟨x, hx⟩ := ih
    exact ⟨_, by rw [evalIn_not, hx]; rfl⟩

end Expr

/-- A comparison of a column with a constant in a filter, and whether it stands below an odd number of
negations. -/
structure ColumnTest where
  column : ColumnRef
  op : Comparison
  constant : Value
  negated : Bool

namespace ColumnTest

/-- The column is NULL in the row, or of the class of a constant that is not NULL. -/
def Fits (row : ColumnRef → Value) (t : ColumnTest) : Prop :=
  t.constant.isNull = false →
    (row t.column).isNull = true ∨ (row t.column).valueClass = t.constant.valueClass

instance (row : ColumnRef → Value) : DecidablePred (Fits row) := fun _ =>
  inferInstanceAs (Decidable (_ → _))

/-- Below a negation the comparison is unknown of the row, though its constant is not NULL. -/
def Blurred (row : ColumnRef → Value) (t : ColumnTest) : Prop :=
  t.negated = true ∧ t.op.seesNull = false ∧ t.constant.isNull = false ∧ (row t.column).isNull = true

instance (row : ColumnRef → Value) : DecidablePred (Blurred row) := fun _ =>
  inferInstanceAs (Decidable (_ ∧ _))

end ColumnTest

namespace Expr

variable {e : Expr} {es : List Expr} {j : Junction}

mutual

/-- The comparisons of columns with constants in a filter that stands below negations, oddly many if
`negated`. -/
def tests (negated : Bool) : Expr → List ColumnTest
  | apply (.compare op) [left, right] =>
    (columnComparison? op left right).toList.map fun (c, op, x) => ⟨c, op, x, negated⟩
  | apply .not args => testsOfList (!negated) args
  | apply .and args | apply .or args => testsOfList negated args
  | _ => []

def testsOfList (negated : Bool) : List Expr → List ColumnTest
  | [] => []
  | e :: rest => e.tests negated ++ testsOfList negated rest

end

theorem testsOfList_eq (negated : Bool) (es : List Expr) :
    testsOfList negated es = es.flatMap (tests negated) := by
  induction es with
  | nil => rfl
  | cons e rest ih => rw [testsOfList, ih, List.flatMap_cons]

theorem tests_junction (negated : Bool) : (apply j.op es).tests negated = es.flatMap (tests negated) := by
  cases j <;> rw [Junction.op, tests, testsOfList_eq]

theorem tests_not (negated : Bool) : (Expr.not e).tests negated = e.tests (!negated) := by
  rw [Expr.not, tests, testsOfList_eq, List.flatMap_singleton]

/-- What simplification keeps of a filter, on a row: what is decided stays so, and only a blurred
comparison is decided anew. -/
structure Sound (row : ColumnRef → Value) (call : String → List Value → Value) (negated : Bool)
    (e e' : Expr) : Prop where
  simple : e'.IsSimple
  refines : ∀ b, e.Is (.ofRow row call) b → e'.Is (.ofRow row call) b
  reflects : (∀ t ∈ e.tests negated, ¬t.Blurred row) →
    e'.Is (.ofRow row call) (!negated) → e.Is (.ofRow row call) (!negated)

variable {row : ColumnRef → Value} {call : String → List Value → Value} {negated negations : Bool}

theorem Sound.of_evalIn {e' : Expr} (hs : e'.IsSimple)
    (h : e'.evalIn (.ofRow row call) = e.evalIn (.ofRow row call)) : Sound row call negated e e' :=
  ⟨hs, fun _ hb => h.trans hb, fun _ hb => h.symm.trans hb⟩

theorem simplify_compare (op : Comparison) (left right : Expr) :
    (compare op left right).simplify = simplifyComparison op left.simplify right.simplify := by
  rw [compare, simplify_apply]
  rfl

theorem simplify_compare_literal {op : Comparison} {c : ColumnRef} {k : Value}
    (h : k.isNull = true → op.seesNull = true) :
    (compare op (column c) (literal k)).simplify = Expr.rangeOrTruth c (.comparing op [k]) := by
  have hcolumn : columnComparison? op (column c).simplify (literal k).simplify = some (c, op, k) := rfl
  rw [simplify_compare]
  simpa [simplifyComparison, hcolumn] using fun hk hop => absurd (h hk) (by simp [hop])

/-- A range term is decided as the comparison that it stands for, or else false where that is unknown. -/
theorem Sound.rangeOrTruth {op : Comparison} {c : ColumnRef} {k : Value}
    (hvalue : e.evalIn (.ofRow row call) = some (Value.compareWith op (row c) k))
    (hsees : k.isNull = true → op.seesNull = true) (htest : ⟨c, op, k, negated⟩ ∈ e.tests negated)
    (hfits : ColumnTest.Fits row ⟨c, op, k, negated⟩) :
    Sound row call negated e (rangeOrTruth c (.comparing op [k])) := by
  have hrange (b : Bool) : (Expr.rangeOrTruth c (.comparing op [k])).Is (.ofRow row call) b ↔
      (KeyRange.comparing op [k]).contains [row c] = b := is_rangeOrTruth rfl
  rw [KeyRange.compareWith_eq hsees hfits] at hvalue
  refine ⟨.rangeOrTruth (.comparing op (by simp)) rfl, fun b hb => (hrange b).2 ?_, fun hclear hb => ?_⟩
  · rw [Is, hvalue] at hb
    split at hb
    · simpa using hb
    · simp at hb
  · rw [hrange] at hb
    rw [Is, hvalue, ← hb]
    split
    · rfl
    · next hx =>
      simp only [Bool.or_eq_true, Bool.not_eq_true', not_or, Bool.not_eq_true, Bool.not_eq_false] at hx
      -- the range does not hold NULL, so that the test stands below a negation
      rw [KeyRange.contains_comparing hsees, hx.1, hx.2] at hb
      have hnegated : negated = true := by simpa using hb
      have hk : k.isNull = false := by
        rw [← Bool.not_eq_true]
        exact fun hk => absurd (hsees hk) (by simp [hx.1])
      exact absurd ⟨hnegated, hx.1, hk, hx.2⟩ (hclear _ htest)

theorem sound_compare {op : Comparison} {left right : Expr} (hl : left.IsScalar) (hr : right.IsScalar)
    (hfits : ∀ t ∈ (compare op left right).tests negated, t.Fits row) :
    Sound row call negated (compare op left right) (compare op left right).simplify := by
  rw [simplify_compare, simplifyComparison, columnComparison?_simplify hl hr]
  split
  · next c op' k h =>
    have htest : ⟨c, op', k, negated⟩ ∈ (compare op left right).tests negated := by
      rw [compare, tests, h]
      simp
    have hvalue := evalIn_of_columnComparison? (v := .ofRow row call) h rfl
    split
    · next hnull =>
      simp only [Bool.and_eq_true, Bool.not_eq_true'] at hnull
      refine .of_evalIn (.literal _) ?_
      rw [hvalue, Value.compareWith_of_isNull hnull.1 hnull.2, Expr.evalIn]
    · next hnull => exact .rangeOrTruth hvalue (by simpa using hnull) htest (hfits _ htest)
  · refine .of_evalIn (IsSimple.compare op hl.simplify.scalar hr.simplify.scalar).foldConstant ?_
    rw [evalIn_foldConstant, compare, compare]
    exact evalIn_apply_congr (by simp) (by simp [hl.simplify.evalIn, hr.simplify.evalIn])

theorem simplify_not : (Expr.not e).simplify = (Expr.not e.simplify).foldConstant := by
  rw [Expr.not, simplify_apply]
  rfl

theorem is_simplify_not {v : Valuation} {b : Bool} :
    (Expr.not e).simplify.Is v b ↔ e.simplify.Is v (!b) := by
  rw [simplify_not, Is, evalIn_foldConstant]
  exact is_not

theorem sound_simplify (h : e.IsFilter negations) (negated : Bool)
    (hfits : ∀ t ∈ e.tests negated, t.Fits row) : Sound row call negated e e.simplify := by
  have hv := Valuation.total_ofRow row call
  induction h generalizing negated with
  | literal x => exact .of_evalIn (.literal x) rfl
  | compare op hl hr => exact sound_compare hl hr hfits
  | @junction j es h ih =>
    rw [tests_junction] at hfits
    have ih : ∀ e ∈ es, Sound row call negated e e.simplify := fun e he =>
      ih e he negated fun t ht => hfits t (List.mem_flatMap.2 ⟨e, he, ht⟩)
    have hsimple : ∀ e ∈ es.map simplify, e.IsSimple := by
      simpa using fun e he => (ih e he).simple
    have heq : (apply j.op es).simplify = simplifyJunction j (es.map simplify) := by
      rw [simplify_apply]
      cases j <;> rfl
    have hsound (b : Bool) := simplifyJunction_sound (j := j) (b := b) hv hsimple
    rw [heq]
    refine ⟨(hsound true).1, fun b hb => ?_, fun hclear hb => ?_⟩
    · refine (hsound b).2.2 (is_junction_mono ?_ (fun e he => (h e he).known hv)
        (fun e he => (hsimple e he).known hv) hb)
      exact List.forall₂_map_right_iff.2 (List.forall₂_same.2 fun e he => (ih e he).refines b)
    · rw [tests_junction] at hclear
      refine is_junction_mono ?_ (fun e he => (hsimple e he).known hv) (fun e he => (h e he).known hv)
        ((hsound _).2.1 hb)
      exact List.forall₂_map_left_iff.2 (List.forall₂_same.2 fun e he => (ih e he).reflects fun t ht =>
        hclear t (List.mem_flatMap.2 ⟨e, he, ht⟩))
  | @not hn e h ih =>
    rw [tests_not] at hfits
    obtain ⟨hsimple, hrefines, hreflects⟩ := ih _ hfits
    refine ⟨simplify_not (e := e) ▸ hsimple.not.foldConstant, fun b hb => ?_, fun hclear hb => ?_⟩
    · exact is_simplify_not.2 (hrefines _ (is_not.1 hb))
    · rw [tests_not] at hclear
      exact is_not.2 (hreflects hclear (is_simplify_not.1 hb))

theorem IsFilter.negated_of_mem_tests (h : e.IsFilter false) :
    ∀ t ∈ e.tests negated, t.negated = negated := by
  induction h with
  | literal x => simp [tests]
  | compare op hl hr =>
    intro t ht
    rw [Expr.compare, tests, List.mem_map] at ht
    obtain ⟨p, -, rfl⟩ := ht
    rfl
  | junction j h ih =>
    intro t ht
    rw [tests_junction] at ht
    obtain ⟨e, he, ht⟩ := List.mem_flatMap.1 ht
    exact ih e he t ht
  | not hn h ih => cases hn

/-- Simplification of a filter without negations never fails, and what it makes accepts the same rows, if
every column is NULL or of the class of the constants that it is compared with. -/
theorem simplify_accepts (h : e.IsFilter false) : e.simplify? = .ok e.simplify ∧
    ∀ (row : ColumnRef → Value) (call : String → List Value → Value), (∀ t ∈ e.tests false, t.Fits row) →
      (e.simplify.evalIn (.ofRow row call) = some (.bool true) ↔
        e.evalIn (.ofRow row call) = some (.bool true)) := by
  refine ⟨simplify?_eq_ok e, fun row call hfits => ?_⟩
  have hsound : Sound row call false e e.simplify := sound_simplify h false hfits
  refine ⟨hsound.reflects fun t ht hblurred => ?_, hsound.refines true⟩
  exact absurd (h.negated_of_mem_tests t ht) (by simp [hblurred.1])

/-- The column `x` lies strictly between 3 and 10, or above 3 and is NULL. -/
def between : Expr :=
  let x := column ⟨⟨none, "t"⟩, "x"⟩
  apply .and [compare .lt (literal (.int 3)) x,
    apply .or [compare .lt x (literal (.int 10)), compare .is x (literal .null)]]

theorem isFilter_between : between.IsFilter negations := by
  refine .junction .all fun e he => ?_
  simp only [List.mem_cons, List.not_mem_nil, or_false] at he
  rcases he with rfl | rfl
  · exact .compare _ (.literal _) (.column _)
  · refine .junction .any fun e he => ?_
    simp only [List.mem_cons, List.not_mem_nil, or_false] at he
    rcases he with rfl | rfl
    · exact .compare _ (.column _) (.literal _)
    · exact .compare _ (.column _) (.literal _)

theorem simplify_accepts_between : between.simplify? = .ok between.simplify ∧
    between.simplify.evalIn (.ofRow (fun _ => .int 5) fun _ _ => .null) = some (.bool true) := by
  obtain ⟨hok, hsame⟩ := simplify_accepts isFilter_between
  have hfits : ∀ t ∈ between.tests false, t.Fits fun _ => .int 5 := by decide
  exact ⟨hok, (hsame _ _ hfits).2 rfl⟩

/-- Of a filter with negations, simplification keeps every truth value that is known; and it accepts no row
more, if no column is NULL that is compared with a constant below an odd number of negations. -/
theorem simplify_decides (h : e.IsFilter true) (row : ColumnRef → Value)
    (call : String → List Value → Value) (hfits : ∀ t ∈ e.tests false, t.Fits row) :
    (∀ b, e.evalIn (.ofRow row call) = some (.bool b) → e.simplify.evalIn (.ofRow row call) = some (.bool b)) ∧
    ((∀ t ∈ e.tests false, ¬t.Blurred row) → e.simplify.evalIn (.ofRow row call) = some (.bool true) →
      e.evalIn (.ofRow row call) = some (.bool true)) := by
  have hsound : Sound row call false e e.simplify := sound_simplify h false hfits
  exact ⟨hsound.refines, hsound.reflects⟩

/-- The condition is needed: the negation of a comparison with a constant is unknown of NULL, and its simple
form true. -/
theorem simplify_not_compare {op : Comparison} {c : ColumnRef} {k : Value} (hop : op.seesNull = false)
    (hk : k.isNull = false) (hnull : (row c).isNull = true) :
    (Expr.not (compare op (column c) (literal k))).evalIn (.ofRow row call) = some .null ∧
    (Expr.not (compare op (column c) (literal k))).simplify.evalIn (.ofRow row call) = some (.bool true) := by
  have hsees : k.isNull = true → op.seesNull = true := by simp [hk]
  constructor
  · have hvalue : (compare op (column c) (literal k)).evalIn (.ofRow row call) =
        some (Value.compareWith op (row c) k) := evalIn_compare rfl rfl
    rw [evalIn_not, hvalue, KeyRange.compareWith_eq hsees fun _ => .inl hnull, hop, hnull]
    rfl
  · refine is_simplify_not.2 ?_
    rw [simplify_compare_literal hsees, is_rangeOrTruth (x := row c) rfl, KeyRange.contains_comparing hsees, hop, hnull]
    simp

theorem simplify_decides_between :
    (Expr.not between).simplify.evalIn (.ofRow (fun _ => .int 2) fun _ _ => .null) = some (.bool true) ∧
    (Expr.not between).evalIn (.ofRow (fun _ => .int 2) fun _ _ => .null) = some (.bool true) := by
  have hfits : ∀ t ∈ (Expr.not between).tests false, t.Fits fun _ => .int 2 := by decide
  have hclear : ∀ t ∈ (Expr.not between).tests false, ¬t.Blurred fun _ => .int 2 := by decide
  obtain ⟨hrefines, hreflects⟩ :=
    simplify_decides (.not rfl isFilter_between) (fun _ => .int 2) (fun _ _ => .null) hfits
  have hsimple := hrefines true rfl
  exact ⟨hsimple, hreflects hclear hsimple⟩

end Expr

end JoinPlanner
