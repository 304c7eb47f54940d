import JoinPlanner.Expr.Simplify
import JoinPlanner.Proofs.Expr.Conjuncts

/-!
# Truth under a valuation

`Expr.Is v b e` says that the three-valued logic decides the filter `e` to be `b`. A junction has its
neutral value if all its terms have it (`Expr.is_neutral`), and the other one if it is known and one
of its terms has that (`Expr.is_absorbing`). Knowing more changes no value that is known
(`Expr.evalIn_of_eval`), so that folding a constant is sound under every valuation
(`Expr.evalIn_foldConstant`).
-/

namespace JoinPlanner

namespace Value

theorem isTrue_iff {x : Value} : x.isTrue = true ↔ x = bool true := by
  cases x with
  | bool b => cases b <;> simp [isTrue]
  | _ => simp [isTrue]

theorem isFalse_iff {x : Value} : x.isFalse = true ↔ x = bool false := by
  cases x with
  | bool b => cases b <;> simp [isFalse]
  | _ => simp [isFalse]

theorem negation_eq {x : Value} {b : Bool} : x.negation = bool b ↔ x = bool !b := by
  cases x with
  | bool b' => cases b <;> cases b' <;> simp [negation]
  | _ => simp [negation]

end Value

namespace Junction

def value : Junction → List Value → Value
  | all => Value.conjunction
  | any => Value.disjunction

variable {j : Junction} {values : List Value}

theorem eq_neutral_or (j : Junction) (b : Bool) : b = j.neutral ∨ b = !j.neutral := by
  cases b <;> cases j.neutral <;> simp

theorem value_eq_neutral : j.value values = .bool j.neutral ↔ ∀ x ∈ values, x = .bool j.neutral := by
  cases j with
  | all =>
    simp only [value, neutral, ← Value.isTrue_iff, ← List.all_eq_true, Value.conjunction]
    split
    · next h =>
      obtain ⟨x, hx, hfalse⟩ := List.any_eq_true.1 h
      obtain rfl := Value.isFalse_iff.1 hfalse
      simpa [Value.isTrue] using ⟨_, hx, rfl⟩
    · split <;> simp_all [Value.isTrue]
  | any =>
    simp only [value, neutral, ← Value.isFalse_iff, ← List.all_eq_true, Value.disjunction]
    split
    · next h =>
      obtain ⟨x, hx, htrue⟩ := List.any_eq_true.1 h
      obtain rfl := Value.isTrue_iff.1 htrue
      simpa [Value.isFalse] using ⟨_, hx, rfl⟩
    · split <;> simp_all [Value.isFalse]

theorem value_eq_absorbing : j.value values = .bool (!j.neutral) ↔ ∃ x ∈ values, x = .bool (!j.neutral) := by
  cases j with
  | all =>
    simp only [value, neutral, Bool.not_true, ← Value.isFalse_iff, ← List.any_eq_true, Value.conjunction]
    split
    · simp_all [Value.isFalse]
    · split <;> simp_all [Value.isFalse]
  | any =>
    simp only [value, neutral, Bool.not_false, ← Value.isTrue_iff, ← List.any_eq_true, Value.disjunction]
    split
    · simp_all [Value.isTrue]
    · split <;> simp_all [Value.isTrue]

end Junction

/-- A function whose value is known when no function is known by its name has that value always. -/
theorem FunctionOp.evaluate_of_unknown {op : FunctionOp} {call : String → List Value → Option Value}
    {values : List Value} {x : Value} (h : op.evaluate Valuation.unknown.call values = some x) :
    op.evaluate call values = some x := by
  unfold FunctionOp.evaluate at h ⊢
  split at h <;> simp_all [Valuation.unknown]

namespace Expr

variable {v : Valuation} {b : Bool} {e : Expr} {es : List Expr} {j : Junction}

theorem evalIn_apply {op : FunctionOp} (h : ∀ range, op ≠ .inRange range) :
    (apply op es).evalIn v = (evalList v es).bind (op.evaluate v.call) :=
  evalIn.eq_4 v op es h

theorem evalList_cons : evalList v (e :: es) = (e.evalIn v).bind fun x => (evalList v es).map (x :: ·) := by
  rw [evalList]
  cases e.evalIn v <;> cases evalList v es <;> rfl

theorem evalList_eq_some {values : List Value} :
    evalList v es = some values ↔ es.map (evalIn v) = values.map some := by
  induction es generalizing values with
  | nil => cases values <;> simp [evalList]
  | cons e rest ih => cases values <;> simp [evalList_cons, Option.bind_eq_some_iff, ih]

theorem evalList_congr {es' : List Expr} {v' : Valuation} (h : es.map (evalIn v) = es'.map (evalIn v')) :
    evalList v es = evalList v' es' := by
  ext values
  rw [evalList_eq_some, evalList_eq_some, h]

/-- The filter is decided to be `b`. -/
def Is (v : Valuation) (b : Bool) (e : Expr) : Prop := e.evalIn v = some (.bool b)

/-- The value of the expression is known. -/
def Known (v : Valuation) (e : Expr) : Prop := ∃ x, e.evalIn v = some x

theorem Is.known (h : e.Is v b) : e.Known v := ⟨_, h⟩

theorem evalIn_junction : (apply j.op es).evalIn v = (evalList v es).map j.value := by
  cases j <;> rw [Junction.op, evalIn_apply (by simp), Option.map_eq_bind] <;> rfl

theorem exists_evalList (h : ∀ e ∈ es, e.Known v) : ∃ values, evalList v es = some values := by
  induction es with
  | nil => exact ⟨[], rfl⟩
  | cons e rest ih =>
    obtain ⟨⟨x, hx⟩, hrest⟩ := List.forall_mem_cons.1 h
    obtain ⟨values, hvalues⟩ := ih hrest
    exact ⟨x :: values, by simp [evalList_cons, hx, hvalues]⟩

theorem mem_values {values : List Value} {x : Value} (h : evalList v es = some values) :
    x ∈ values ↔ ∃ e ∈ es, e.evalIn v = some x := by
  have hmap := evalList_eq_some.1 h
  have hmem : some x ∈ es.map (evalIn v) ↔ some x ∈ values.map some := by rw [hmap]
  simpa using hmem.symm

theorem known_of_evalList {values : List Value} (h : evalList v es = some values) : ∀ e ∈ es, e.Known v := by
  intro e he
  have hmem : e.evalIn v ∈ es.map (evalIn v) := List.mem_map_of_mem he
  rw [evalList_eq_some.1 h] at hmem
  obtain ⟨x, -, hx⟩ := List.mem_map.1 hmem
  exact ⟨x, hx.symm⟩

theorem is_neutral : (apply j.op es).Is v j.neutral ↔ ∀ e ∈ es, e.Is v j.neutral := by
  rw [Is, evalIn_junction, Option.map_eq_some_iff]
  constructor
  · rintro ⟨values, hvalues, hneutral⟩ e he
    obtain ⟨x, hx⟩ := known_of_evalList hvalues e he
    have := Junction.value_eq_neutral.1 hneutral x ((mem_values hvalues).2 ⟨e, he, hx⟩)
    rwa [this] at hx
  · intro h
    obtain ⟨values, hvalues⟩ := exists_evalList fun e he => (h e he).known
    refine ⟨values, hvalues, Junction.value_eq_neutral.2 fun x hx => ?_⟩
    obtain ⟨e, he, hx⟩ := (mem_values hvalues).1 hx
    exact Option.some_inj.1 (hx.symm.trans (h e he))

theorem is_absorbing (h : ∀ e ∈ es, e.Known v) :
    (apply j.op es).Is v (!j.neutral) ↔ ∃ e ∈ es, e.Is v (!j.neutral) := by
  obtain ⟨values, hvalues⟩ := exists_evalList h
  rw [Is, evalIn_junction, hvalues, Option.map_some, Option.some_inj, Junction.value_eq_absorbing]
  simp only [exists_eq_right, mem_values hvalues, Is]

theorem known_junction (h : ∀ e ∈ es, e.Known v) : (apply j.op es).Known v := by
  obtain ⟨values, hvalues⟩ := exists_evalList h
  exact ⟨j.value values, by rw [evalIn_junction, hvalues, Option.map_some]⟩

/-- A junction is monotone in its terms. -/
theorem is_junction_mono {es' : List Expr} (h : List.Forall₂ (fun e e' => e.Is v b → e'.Is v b) es es')
    (hes : ∀ e ∈ es, e.Known v) (hes' : ∀ e ∈ es', e.Known v) (hb : (apply j.op es).Is v b) :
    (apply j.op es').Is v b := by
  rcases j.eq_neutral_or b with rfl | rfl
  · rw [is_neutral] at hb ⊢
    clear hes hes'
    induction h with
    | nil => exact hb
    | cons h _ ih =>
      rw [List.forall_mem_cons] at hb ⊢
      exact ⟨h hb.1, ih hb.2⟩
  · rw [is_absorbing hes] at hb
    rw [is_absorbing hes']
    clear hes hes'
    induction h with
    | nil => exact hb
    | cons h _ ih =>
      rw [List.exists_mem_cons_iff] at hb ⊢
      exact hb.imp h ih

theorem evalIn_not : (Expr.not e).evalIn v = (e.evalIn v).map Value.negation := by
  rw [Expr.not, evalIn_apply (by simp), evalList_cons]
  cases e.evalIn v <;> rfl

theorem is_not : (Expr.not e).Is v b ↔ e.Is v (!b) := by
  rw [Is, evalIn_not, Option.map_eq_some_iff]
  simp [Value.negation_eq, Is]

theorem evalIn_compare {op : Comparison} {left right : Expr} {x y : Value} (hl : left.evalIn v = some x)
    (hr : right.evalIn v = some y) : (compare op left right).evalIn v = some (Value.compareWith op x y) := by
  rw [compare, evalIn_apply (by simp), evalList_cons, evalList_cons, hl, hr]
  rfl

theorem evalIn_inRange {c : ColumnRef} {range : KeyRange} :
    (inRange c range).evalIn v = (v.column c).map fun x => .bool (range.contains [x]) := by
  rw [inRange, evalIn]
  rfl

/-- What is known when nothing is, is known under every valuation. -/
theorem evalIn_of_eval {x : Value} (h : e.eval = some x) : e.evalIn v = some x := by
  refine evalIn.induct (fun e => ∀ x, e.evalIn .unknown = some x → e.evalIn v = some x)
    (fun es => ∀ values, evalList .unknown es = some values → evalList v es = some values)
    ?column ?literal ?inRange ?apply ?other ?nil ?cons e x h
  case column =>
    intro c x h
    cases h
  case literal => exact fun x y h => h
  case inRange =>
    intro range args x h
    rw [evalIn] at h
    cases hc : columnArgument? args <;> rw [hc] at h <;> cases h
  case apply =>
    intro op args hop ih x h
    rw [evalIn_apply hop, Option.bind_eq_some_iff] at h ⊢
    obtain ⟨values, hvalues, hx⟩ := h
    exact ⟨values, ih values hvalues, FunctionOp.evaluate_of_unknown hx⟩
  case other =>
    intro e hcolumn hliteral hrange happly x h
    cases e with
    | column c => exact absurd rfl (hcolumn c)
    | literal y => exact absurd rfl (hliteral y)
    | apply op args => exact absurd rfl (happly op args)
    | _ => simp [evalIn] at h
  case nil => exact fun values h => h
  case cons =>
    intro e rest ih ihrest values h
    rw [evalList_cons, Option.bind_eq_some_iff] at h ⊢
    obtain ⟨x, hx, h⟩ := h
    obtain ⟨rest', hrest, rfl⟩ := Option.map_eq_some_iff.1 h
    exact ⟨x, ih x hx, by rw [ihrest rest' hrest]; rfl⟩

theorem evalIn_foldConstant : e.foldConstant.evalIn v = e.evalIn v := by
  unfold foldConstant constant?
  split
  · next x h =>
    split at h
    · rw [evalIn_of_eval h, evalIn]
    · cases h
  · rfl

/-! ### Conjuncts and columns -/

/-- Whether a filter is true; a row for which it is false or unknown is not kept. -/
def holds (v : Valuation) (e : Expr) : Bool := (e.evalIn v).any Value.isTrue

theorem holds_iff : e.holds v = true ↔ e.Is v true := by
  simp [holds, Is, Option.any_eq_true, Value.isTrue_iff]

/-- A filter is true if all its conjuncts are. -/
theorem all_conjuncts : e.conjuncts.all (holds v) = e.holds v := by
  induction e using conjunction_induction with
  | and es ih =>
    rw [conjuncts_and, List.all_flatMap, Bool.eq_iff_iff, holds_iff, List.all_eq_true]
    refine Iff.trans (forall₂_congr fun e he => ?_) (is_neutral (j := .all)).symm
    rw [ih e he, holds_iff]
    rfl
  | other e he => rw [he, List.all_cons, List.all_nil, Bool.and_true]

theorem holds_of_isTrueLiteral (h : e.isTrueLiteral = true) : e.holds v = true := by
  unfold isTrueLiteral at h
  split at h
  · rw [holds_iff, Is, evalIn, Value.isTrue_iff.1 h]
  · cases h

theorem all_termsOf : (Predicate.termsOf e).all (holds v) = e.holds v := by
  have hterm (e : Expr) : (!!e.isTrueLiteral || e.holds v) = e.holds v := by
    cases ht : e.isTrueLiteral with
    | false => rfl
    | true => rw [holds_of_isTrueLiteral ht]; rfl
  rw [Predicate.termsOf, ← all_conjuncts, List.all_filter]
  simp only [hterm]

/-- The value of an expression depends only on the columns that it reads. -/
theorem evalIn_congr {v' : Valuation} (hcall : v.call = v'.call)
    (h : ∀ c ∈ e.columns, v.column c = v'.column c) : e.evalIn v = e.evalIn v' := by
  refine evalIn.induct (fun e => (∀ c ∈ e.columns, v.column c = v'.column c) → e.evalIn v = e.evalIn v')
    (fun es => (∀ c ∈ es.flatMap columns, v.column c = v'.column c) → evalList v es = evalList v' es)
    ?column ?literal ?inRange ?apply ?other ?nil ?cons e h
  case column => exact fun c h => h c (by simp [columns])
  case literal => exact fun x h => rfl
  case inRange =>
    intro range args h
    rw [evalIn, evalIn]
    cases hc : columnArgument? args with
    | none => rfl
    | some c =>
      have hmem : c ∈ (apply (.inRange range) args).columns := by
        unfold columnArgument? at hc
        split at hc
        · simp_all [columnsOfList, columns]
        · cases hc
      rw [Option.bind_some, Option.bind_some, h c hmem]
  case apply =>
    intro op args hop ih h
    rw [columns_apply] at h
    rw [evalIn_apply hop, evalIn_apply hop, ih h, hcall]
  case other =>
    intro e hcolumn hliteral hrange happly h
    cases e with
    | column c => exact absurd rfl (hcolumn c)
    | literal y => exact absurd rfl (hliteral y)
    | apply op args => exact absurd rfl (happly op args)
    | _ => simp [evalIn]
  case nil => exact fun h => rfl
  case cons =>
    intro e rest ih ihrest h
    rw [List.flatMap_cons, List.forall_mem_append] at h
    rw [evalList_cons, evalList_cons, ih h.1, ihrest h.2]

end Expr

end JoinPlanner
