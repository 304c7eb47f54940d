import JoinPlanner.Proofs.Expr.NodeStep
import JoinPlanner.Proofs.Range.Membership

/-!
# Simplification of junctions

What simplification makes of a junction of simple filters (`Expr.IsSimple`) is simple again, and decided
as the junction is under every valuation of all columns and functions
(`Expr.simplifyJunction_sound`). Every step keeps whether all terms have the neutral value and whether
some term has the other one (`Junction.Agree`).
-/

namespace JoinPlanner

/-- Every column and every function has a value. -/
structure Valuation.Total (v : Valuation) : Prop where
  column : ∀ c, ∃ x, v.column c = some x
  call : ∀ name values, ∃ x, v.call name values = some x

namespace Expr

/-- The scalar terms: columns, literals, arithmetic and functions known by name only. -/
inductive IsScalar : Expr → Prop
  | column (c : ColumnRef) : IsScalar (column c)
  | literal (x : Value) : IsScalar (literal x)
  | arith (op : Arithmetic) {left right : Expr} (hl : IsScalar left) (hr : IsScalar right) :
      IsScalar (apply (.arith op) [left, right])
  | call (name : String) {args : List Expr} (h : ∀ e ∈ args, IsScalar e) : IsScalar (apply (.call name) args)

/-- The filters that simplification makes of comparisons, junctions and negations. -/
inductive IsSimple : Expr → Prop
  | literal (x : Value) : IsSimple (literal x)
  | inRange (c : ColumnRef) {range : KeyRange} (hrange : range.WellFormed) (hwidth : range.width = 1) :
      IsSimple (inRange c range)
  | compare (op : Comparison) {left right : Expr} (hl : left.IsScalar) (hr : right.IsScalar) :
      IsSimple (compare op left right)
  | junction (j : Junction) {es : List Expr} (h : ∀ e ∈ es, IsSimple e) : IsSimple (apply j.op es)
  | not {e : Expr} (h : IsSimple e) : IsSimple (Expr.not e)

variable {v : Valuation} {b : Bool} {e : Expr} {es : List Expr} {j : Junction}

theorem IsScalar.known (hv : v.Total) (h : e.IsScalar) : e.Known v := by
  induction h with
  | column c => exact hv.column c
  | literal x => exact ⟨x, rfl⟩
  | arith op hl hr ihl ihr =>
    obtain ⟨x, hx⟩ := ihl
    obtain ⟨y, hy⟩ := ihr
    refine ⟨Value.arith op x y, ?_⟩
    rw [evalIn_apply (by simp), evalList_cons, evalList_cons, hx, hy]
    rfl
  | call name h ih =>
    obtain ⟨values, hvalues⟩ := exists_evalList ih
    obtain ⟨x, hx⟩ := hv.call name values
    exact ⟨x, by rw [evalIn_apply (by simp), hvalues]; exact hx⟩

theorem IsSimple.known (hv : v.Total) (h : e.IsSimple) : e.Known v := by
  induction h with
  | literal x => exact ⟨x, rfl⟩
  | inRange c hrange hwidth =>
    obtain ⟨x, hx⟩ := hv.column c
    exact ⟨_, by rw [evalIn_inRange, hx]; rfl⟩
  | compare op hl hr =>
    obtain ⟨x, hx⟩ := hl.known hv
    obtain ⟨y, hy⟩ := hr.known hv
    exact ⟨_, evalIn_compare hx hy⟩
  | junction j h ih => exact known_junction ih
  | not h ih =>
    obtain ⟨x, hx⟩ := ih
    exact ⟨_, by rw [evalIn_not, hx]; rfl⟩

end Expr

/-- Two lists of terms are decided alike as terms of a junction. -/
structure Junction.Agree (j : Junction) (v : Valuation) (es es' : List Expr) : Prop where
  neutral : (∀ e ∈ es, e.Is v j.neutral) ↔ ∀ e ∈ es', e.Is v j.neutral
  absorbing : (∃ e ∈ es, e.Is v (!j.neutral)) ↔ ∃ e ∈ es', e.Is v (!j.neutral)

namespace Junction.Agree

variable {j : Junction} {v : Valuation} {es es' es₁ es₂ : List Expr} {b : Bool}

theorem refl (es : List Expr) : j.Agree v es es := ⟨.rfl, .rfl⟩

theorem trans (h : j.Agree v es es₁) (h' : j.Agree v es₁ es₂) : j.Agree v es es₂ :=
  ⟨h.neutral.trans h'.neutral, h.absorbing.trans h'.absorbing⟩

theorem append (h : j.Agree v es es') (h' : j.Agree v es₁ es₂) : j.Agree v (es ++ es₁) (es' ++ es₂) := by
  constructor
  · rw [List.forall_mem_append, List.forall_mem_append, h.neutral, h'.neutral]
  · simp only [List.mem_append, or_and_right, exists_or, h.absorbing, h'.absorbing]

theorem of_mem_iff (h : ∀ e, e ∈ es ↔ e ∈ es') : j.Agree v es es' := by
  constructor <;> simp only [h]

theorem is_iff (h : j.Agree v es es') (hes : ∀ e ∈ es, e.Known v) (hes' : ∀ e ∈ es', e.Known v) :
    (Expr.apply j.op es).Is v b ↔ (Expr.apply j.op es').Is v b := by
  rcases j.eq_neutral_or b with rfl | rfl
  · rw [Expr.is_neutral, Expr.is_neutral, h.neutral]
  · rw [Expr.is_absorbing hes, Expr.is_absorbing hes', h.absorbing]

end Junction.Agree

namespace Expr

variable {v : Valuation} {b : Bool} {e : Expr} {es : List Expr} {j : Junction}

theorem agree_terms_singleton (h : e.Known v) (hes : ∀ args, j.terms? e = some args → ∀ e ∈ args, e.Known v) :
    j.Agree v ((j.terms? e).getD [e]) [e] := by
  cases hterms : j.terms? e with
  | none => exact .refl _
  | some args =>
    obtain rfl := terms?_eq_some hterms
    constructor
    · simp [is_neutral]
    · simp [is_absorbing (hes args hterms)]

theorem IsSimple.of_junction (h : (apply j.op es).IsSimple) : ∀ e ∈ es, e.IsSimple := by
  generalize he : apply j.op es = e at h
  cases h with
  | junction j' h' =>
    obtain ⟨-, rfl⟩ := Expr.apply.inj he
    exact h'
  | _ => cases j <;> cases he

theorem IsSimple.terms (h : ∀ e ∈ es, e.IsSimple) :
    ∀ e ∈ es.flatMap fun e => (j.terms? e).getD [e], e.IsSimple := by
  intro e he
  rcases mem_terms_cases he with ⟨he, -⟩ | ⟨args, hargs, he⟩
  · exact h e he
  · exact (h _ hargs).of_junction e he

theorem agree_terms (hv : v.Total) (h : ∀ e ∈ es, e.IsSimple) :
    j.Agree v (es.flatMap fun e => (j.terms? e).getD [e]) es := by
  induction es with
  | nil => exact .refl _
  | cons e rest ih =>
    obtain ⟨he, hrest⟩ := List.forall_mem_cons.1 h
    rw [List.flatMap_cons]
    refine (agree_terms_singleton (he.known hv) fun args hterms e' he' => ?_).append (ih hrest)
    obtain rfl := terms?_eq_some hterms
    exact (he.of_junction e' he').known hv

theorem IsSimple.of_rangeTerm? {c : ColumnRef} {range : KeyRange} (h : e.IsSimple)
    (hterm : e.rangeTerm? = some (c, range)) :
    e = Expr.inRange c range ∧ range.WellFormed ∧ range.width = 1 := by
  cases h with
  | inRange c' hrange hwidth =>
    obtain ⟨rfl, rfl⟩ := Prod.mk.inj (Option.some.inj hterm)
    exact ⟨rfl, hrange, hwidth⟩
  | junction j h => cases j <;> cases hterm
  | _ => cases hterm

theorem is_inRange {c : ColumnRef} {range : KeyRange} {x : Value} (hx : v.column c = some x) :
    (inRange c range).Is v b ↔ range.contains [x] = b := by
  rw [Is, evalIn_inRange, hx]
  simp

theorem is_bool {b' : Bool} : (bool b').Is v b ↔ b' = b := by
  rw [Is, bool, evalIn]
  simp

theorem is_rangeOrTruth {c : ColumnRef} {range : KeyRange} {x : Value} (hx : v.column c = some x) :
    (rangeOrTruth c range).Is v b ↔ range.contains [x] = b := by
  unfold rangeOrTruth
  split
  · next h =>
    rw [is_bool, KeyRange.contains_of_isEmpty h]
  · split
    · next h => rw [is_bool, KeyRange.contains_of_isFull h]
    · exact is_inRange hx

theorem IsSimple.rangeOrTruth {c : ColumnRef} {range : KeyRange} (hrange : range.WellFormed)
    (hwidth : range.width = 1) : (rangeOrTruth c range).IsSimple := by
  unfold Expr.rangeOrTruth
  split
  · exact .literal _
  · split
    · exact .literal _
    · exact .inRange c hrange hwidth

section
variable {c : ColumnRef} {r s : KeyRange}

theorem wellFormed_combine (hr : r.WellFormed) (hs : s.WellFormed) (h : r.width = s.width) :
    (j.combine r s).WellFormed ∧ (j.combine r s).width = r.width := by
  cases j with
  | all => exact ⟨hr.interSameWidth hs h, rfl⟩
  | any => exact ⟨hr.unionSameWidth hs h, rfl⟩

/-- Merging two range terms of a column loses nothing: a range decides every row. -/
theorem agree_combine (hv : v.Total) (hr : r.WellFormed) (hs : s.WellFormed) (hwidth : r.width = 1)
    (h : r.width = s.width) : j.Agree v [rangeOrTruth c (j.combine r s)] [inRange c r, inRange c s] := by
  obtain ⟨x, hx⟩ := hv.column c
  have hk : r.width ≤ List.length [x] := by simp [hwidth]
  constructor <;>
    simp only [List.forall_mem_cons, List.exists_mem_cons_iff, List.not_mem_nil, is_rangeOrTruth hx,
      is_inRange hx]
  · cases j with
    | all => simp [Junction.combine, Junction.neutral, KeyRange.contains_interSameWidth hr hs h hk]
    | any => simp [Junction.combine, Junction.neutral, KeyRange.contains_unionSameWidth hr hs h hk]
  · cases j with
    | all =>
      simp [Junction.combine, Junction.neutral, KeyRange.contains_interSameWidth hr hs h hk]
      cases r.contains [x] <;> simp
    | any => simp [Junction.combine, Junction.neutral, KeyRange.contains_unionSameWidth hr hs h hk]

end

theorem keptByMerging_isSimple : KeptByMerging j IsSimple := by
  intro e term c r s he hterm her hterms hwidth
  obtain ⟨-, hr, hone⟩ := he.of_rangeTerm? her
  obtain ⟨-, hs, -⟩ := hterm.of_rangeTerm? hterms
  obtain ⟨hcombine, hwidth'⟩ := wellFormed_combine (j := j) hr hs hwidth
  exact .rangeOrTruth hcombine (hwidth'.trans hone)

theorem MergeStep.sound {term : Expr} {es' : List Expr} (hv : v.Total) (h : MergeStep j es term es')
    (hes : ∀ e ∈ es, e.IsSimple) (hterm : term.IsSimple) :
    (∀ e ∈ es', e.IsSimple) ∧ j.Agree v es' (es ++ [term]) := by
  refine ⟨h.forall keptByMerging_isSimple hes hterm, ?_⟩
  cases h with
  | last => exact .refl _
  | @into before after e c r s hsplit _ he hterm' hwidth _ =>
    subst hsplit
    obtain ⟨rfl, hr, hone⟩ := IsSimple.of_rangeTerm? (hes _ (by simp)) he
    obtain ⟨rfl, hs, -⟩ := hterm.of_rangeTerm? hterm'
    have hcombined := agree_combine (j := j) (c := c) hv hr hs hone hwidth
    have hmerged := hcombined.append (.refl (before ++ after))
    refine (Junction.Agree.of_mem_iff fun e => ?_).trans (hmerged.trans (.of_mem_iff fun e => ?_))
    · simp only [List.mem_append, List.mem_cons, List.not_mem_nil]
      tauto
    · simp only [List.mem_append, List.mem_cons, List.not_mem_nil]
      tauto

theorem foldl_mergeTerm_sound {terms : List Expr} (hv : v.Total) (h : ∀ e ∈ es, e.IsSimple)
    (hterms : ∀ e ∈ terms, e.IsSimple) : (∀ e ∈ terms.foldl (mergeTerm j) es, e.IsSimple) ∧
      j.Agree v (terms.foldl (mergeTerm j) es) (es ++ terms) := by
  induction terms generalizing es with
  | nil => exact ⟨h, by rw [List.append_nil]; exact .refl _⟩
  | cons term rest ih =>
    obtain ⟨hterm, hrest⟩ := List.forall_mem_cons.1 hterms
    obtain ⟨hsimple, hagree⟩ := (mergeTerm_cases j es term).sound hv h hterm
    obtain ⟨hsimple', hagree'⟩ := ih hsimple hrest
    refine ⟨hsimple', hagree'.trans ?_⟩
    rw [← List.singleton_append, ← List.append_assoc]
    exact hagree.append (.refl _)

/-! ### Junctions -/

/-- A term that is literally neutral says nothing. -/
theorem agree_filter : j.Agree v (es.filter (!isTruth j.neutral ·)) es := by
  have hneutral {e : Expr} (h : isTruth j.neutral e = true) : e.Is v j.neutral ∧ ¬e.Is v (!j.neutral) := by
    rw [isTruth_iff.1 h, is_bool, is_bool]
    simp
  constructor
  · refine ⟨fun h e he => ?_, fun h e he => h e (List.mem_of_mem_filter he)⟩
    cases htruth : isTruth j.neutral e with
    | true => exact (hneutral htruth).1
    | false => exact h e (List.mem_filter.2 ⟨he, by simp [htruth]⟩)
  · refine ⟨fun ⟨e, he, h⟩ => ⟨e, List.mem_of_mem_filter he, h⟩, fun ⟨e, he, h⟩ => ⟨e, ?_, h⟩⟩
    cases htruth : isTruth j.neutral e with
    | true => exact absurd h (hneutral htruth).2
    | false => exact List.mem_filter.2 ⟨he, by simp [htruth]⟩

theorem is_of_absorbing (h : ∀ e ∈ es, e.Known v) (hmem : bool (!j.neutral) ∈ es) :
    (bool (!j.neutral)).Is v b ↔ (apply j.op es).Is v b := by
  rw [is_bool]
  rcases j.eq_neutral_or b with rfl | rfl
  · rw [is_neutral]
    refine ⟨fun hf => absurd hf (by simp), fun hall => ?_⟩
    exact is_bool.1 (hall _ hmem)
  · rw [is_absorbing h]
    exact ⟨fun _ => ⟨_, hmem, is_bool.2 rfl⟩, fun _ => rfl⟩

theorem is_singleton (h : e.Known v) : e.Is v b ↔ (apply j.op [e]).Is v b := by
  rcases j.eq_neutral_or b with rfl | rfl
  · simp [is_neutral]
  · have hknown : ∀ e' ∈ [e], e'.Known v := by simpa using h
    simp [is_absorbing (j := j) hknown]

theorem IsSimple.foldConstant (h : e.IsSimple) : e.foldConstant.IsSimple := by
  unfold Expr.foldConstant
  split
  · exact .literal _
  · exact h

theorem closeJunction_sound (hv : v.Total) (h : ∀ e ∈ es, e.IsSimple) :
    (closeJunction j es).IsSimple ∧ ((closeJunction j es).Is v b ↔ (apply j.op es).Is v b) := by
  have hknown {es : List Expr} (h : ∀ e ∈ es, e.IsSimple) : ∀ e ∈ es, e.Known v :=
    fun e he => (h e he).known hv
  unfold closeJunction
  split
  · next hany =>
    obtain ⟨e, he, htruth⟩ := List.any_eq_true.1 hany
    exact ⟨.literal _, is_of_absorbing (hknown h) (isTruth_iff.1 htruth ▸ he)⟩
  · have hfilter : ∀ e ∈ es.filter (!isTruth j.neutral ·), e.IsSimple :=
      fun e he => h e (List.mem_of_mem_filter he)
    rw [← agree_filter.is_iff (hknown hfilter) (hknown h)]
    split
    · next hnil =>
      rw [hnil]
      refine ⟨.literal _, ?_⟩
      rcases j.eq_neutral_or b with rfl | rfl
      · simp [is_bool, is_neutral]
      · simp [is_bool, is_absorbing]
    · next e hone =>
      rw [hone] at hfilter ⊢
      have he : e.IsSimple := hfilter e (by simp)
      exact ⟨he, is_singleton (he.known hv)⟩
    · exact ⟨(IsSimple.junction j hfilter).foldConstant, by rw [Is, evalIn_foldConstant, Is]⟩

theorem simplifyJunction_sound (hv : v.Total) (h : ∀ e ∈ es, e.IsSimple) :
    (simplifyJunction j es).IsSimple ∧ ((simplifyJunction j es).Is v b ↔ (apply j.op es).Is v b) := by
  have hnil : ∀ e ∈ ([] : List Expr), e.IsSimple := by simp
  obtain ⟨hmerged, hagree⟩ := foldl_mergeTerm_sound (j := j) hv hnil (IsSimple.terms (j := j) h)
  rw [List.nil_append] at hagree
  obtain ⟨hsimple, hsame⟩ := closeJunction_sound (j := j) (b := b) hv hmerged
  refine ⟨hsimple, hsame.trans ?_⟩
  exact (hagree.trans (agree_terms hv h)).is_iff (fun e he => (hmerged e he).known hv)
    fun e he => (h e he).known hv

end Expr

end JoinPlanner
