import JoinPlanner.Proofs.Expr.Fixpoint
import JoinPlanner.Proofs.Expr.SimplifySound

/-!
# Columns compared with values of one class

If all constants with which a column is compared are of one class, the ranges made of them and of each other are
of that class too (`KeyRange.OfClass.combine`). No two of one column then stay apart in a junction, and the simple
form is simplified no further. Without this it may be (`Expr.simplify_fixpoint`).
-/

namespace JoinPlanner

/-- The values of the bound other than NULL are of the class `k`. -/
def KeyBound.OfClass (k : ValueClass) (b : KeyBound) : Prop :=
  ∀ key ∈ b.key?, ∀ v ∈ key, v.isNull = false → v.valueClass = k

theorem KeyBound.OfClass.ite {k : ValueClass} {c : Prop} [Decidable c] {a b : KeyBound} (ha : a.OfClass k)
    (hb : b.OfClass k) : (if c then a else b).OfClass k := by
  split
  · exact ha
  · exact hb

structure KeyInterval.OfClass (k : ValueClass) (i : KeyInterval) : Prop where
  lower : i.lower.OfClass k
  upper : i.upper.OfClass k

namespace KeyInterval.OfClass

variable {k : ValueClass} {i i' : KeyInterval}

theorem inter (h : i.OfClass k) (h' : i'.OfClass k) : (i.inter i').OfClass k :=
  ⟨.ite h'.lower h.lower, .ite h'.upper h.upper⟩

theorem hull (h : i.OfClass k) (h' : i'.OfClass k) : (i.hull i').OfClass k :=
  ⟨.ite h'.lower h.lower, .ite h'.upper h.upper⟩

end KeyInterval.OfClass

theorem SortedSet.size_le_one {α : Type} [Ord α] [Std.LawfulEqOrd α] {s : SortedSet α} {a : α} (h : ∀ x ∈ s, x = a) :
    s.size ≤ 1 := by
  by_contra hsize
  obtain ⟨l, hascending⟩ := s
  match l, hascending with
  | x :: y :: rest, hascending =>
    have hx : x = a := h x (by simp [SortedSet.mem_def])
    have hy : y = a := h y (by simp [SortedSet.mem_def])
    have hlt := (List.pairwise_cons.1 hascending).1 y List.mem_cons_self
    rw [hx, hy, Std.compare_self] at hlt
    cases hlt
  | [], _ => exact hsize (Nat.zero_le _)
  | [x], _ => exact hsize le_rfl

namespace KeyRange

variable {k : ValueClass} {r s : KeyRange} {j : Junction}

/-- The bounds of the range hold values of one class. -/
def OfClass (k : ValueClass) (r : KeyRange) : Prop := ∀ x ∈ r.valueClasses, x = k

theorem mem_valueClasses {x : ValueClass} : x ∈ r.valueClasses ↔ ∃ i ∈ r.intervals, ∃ key,
    (key ∈ i.lower.key? ∨ key ∈ i.upper.key?) ∧ ∃ v ∈ key, v.isNull = false ∧ v.valueClass = x := by
  simp only [valueClasses, SortedSet.mem_ofList, List.mem_map, List.mem_filter, List.mem_flatten, List.mem_flatMap,
    List.mem_append, Option.mem_toList, Bool.not_eq_true']
  constructor
  · rintro ⟨v, ⟨⟨key, ⟨i, hi, hkey⟩, hv⟩, hnull⟩, hclass⟩
    exact ⟨i, hi, key, hkey, v, hv, hnull, hclass⟩
  · rintro ⟨i, hi, key, hkey, v, hv, hnull, hclass⟩
    exact ⟨v, ⟨⟨key, ⟨i, hi, hkey⟩, hv⟩, hnull⟩, hclass⟩

theorem ofClass_iff : r.OfClass k ↔ ∀ i ∈ r.intervals, i.OfClass k := by
  constructor
  · intro h i hi
    exact ⟨fun key hkey v hv hnull => h _ (mem_valueClasses.2 ⟨i, hi, key, .inl hkey, v, hv, hnull, rfl⟩),
      fun key hkey v hv hnull => h _ (mem_valueClasses.2 ⟨i, hi, key, .inr hkey, v, hv, hnull, rfl⟩)⟩
  · intro h x hx
    obtain ⟨i, hi, key, hkey, v, hv, hnull, rfl⟩ := mem_valueClasses.1 hx
    rcases hkey with hkey | hkey
    · exact (h i hi).lower key hkey v hv hnull
    · exact (h i hi).upper key hkey v hv hnull

theorem OfClass.sameClass (hr : r.OfClass k) (hs : s.OfClass k) : r.sameClass s = true := by
  refine decide_eq_true (SortedSet.size_le_one (a := k) fun x hx => ?_)
  rcases SortedSet.mem_union.1 hx with hx | hx
  · exact hr x hx
  · exact hs x hx

theorem ofClass_foldl_absorb {l m : List KeyInterval} (hl : ∀ i ∈ l, i.OfClass k) (hm : ∀ i ∈ m, i.OfClass k) :
    ∀ i ∈ m.foldl absorb l, i.OfClass k :=
  forall_foldl_absorb (fun _ _ h h' => h.hull h') hl hm

theorem ofClass_ofIntervals {w : ℕ} {l : List KeyInterval} (h : ∀ i ∈ l, i.OfClass k) : (ofIntervals w l).OfClass k :=
  ofClass_iff.2 (ofClass_foldl_absorb nofun fun i hi => h i (List.mem_of_mem_filter hi))

theorem OfClass.combine (hr : r.OfClass k) (hs : s.OfClass k) : (j.combine r s).OfClass k := by
  have hr := ofClass_iff.1 hr
  have hs := ofClass_iff.1 hs
  cases j with
  | all => exact ofClass_ofIntervals (forall_inters (fun _ _ h h' => h.inter h') hr hs)
  | any => exact ofClass_iff.2 (ofClass_foldl_absorb hs hr)

theorem ofClass_comparing {op : Comparison} {v : Value} (h : v.isNull = false → v.valueClass = k) :
    (comparing op [v]).OfClass k := by
  have hbound {b : KeyBound} (hb : ∀ key ∈ b.key?, key = [v]) : b.OfClass k := fun key hkey x hx => by
    obtain rfl := hb key hkey
    obtain rfl := List.mem_singleton.1 hx
    exact h
  refine ofClass_ofIntervals fun i hi => ?_
  obtain ⟨hlower, hupper⟩ := keys_comparisonIntervals op [v] i hi
  exact ⟨hbound hlower, hbound hupper⟩

end KeyRange

namespace Expr

variable {κ : ColumnRef → ValueClass} {j : Junction} {e f : Expr} {args merged terms : List Expr}

/-- A range term of a column has values of the column's class. -/
def RangeOfClass (κ : ColumnRef → ValueClass) (e : Expr) : Prop :=
  ∀ c r, e.rangeTerm? = some (c, r) → r.OfClass (κ c)

/-- A node with simple children compares each column with values of the column's class only. -/
structure ComparesAs (κ : ColumnRef → ValueClass) (e : Expr) : Prop where
  range : e.RangeOfClass κ
  comparison : ∀ op left right, e = compare op left right → ∀ c op' v,
    columnComparison? op left right = some (c, op', v) → v.isNull = false → v.valueClass = κ c

/-- Wherever the tree compares a column with constants, as it is simplified, these are of the column's class. -/
def ComparesWithin (κ : ColumnRef → ValueClass) (e : Expr) : Prop :=
  e.Throughout fun f => (f.mapChildren simplify).ComparesAs κ

theorem comparesAs_of_none (hrange : e.rangeTerm? = none) (hcomparison : e.comparison? = none) : e.ComparesAs κ where
  range c r h := by rw [hrange] at h; cases h
  comparison op left right h := by rw [h] at hcomparison; cases hcomparison

theorem comparesWithin_leaf (hchildren : e.children = []) (hrange : (e.mapChildren simplify).rangeTerm? = none)
    (hcomparison : (e.mapChildren simplify).comparison? = none) : e.ComparesWithin κ :=
  .intro _ (comparesAs_of_none hrange hcomparison) (hchildren ▸ List.forall_mem_nil _)

theorem IsScalar.comparesWithin (h : e.IsScalar) : e.ComparesWithin κ := by
  induction h with
  | column c => exact comparesWithin_leaf rfl rfl rfl
  | literal x => exact comparesWithin_leaf rfl rfl rfl
  | arith op _ _ ihl ihr =>
    exact .intro _ (comparesAs_of_none rfl rfl) (List.forall_mem_cons.2 ⟨ihl, List.forall_mem_singleton.2 ihr⟩)
  | call name _ ih => exact .intro _ (comparesAs_of_none rfl rfl) ih

theorem comparesWithin_compare {op : Comparison} {left right : Expr} (hl : left.IsScalar) (hr : right.IsScalar)
    (hclass : ∀ c op' v, columnComparison? op left right = some (c, op', v) → v.isNull = false → v.valueClass = κ c) :
    (compare op left right).ComparesWithin κ := by
  refine .intro _ ⟨fun c r h => (by cases h), fun op' left' right' heq c op'' v hcolumn => ?_⟩
    (List.forall_mem_cons.2 ⟨hl.comparesWithin, List.forall_mem_singleton.2 hr.comparesWithin⟩)
  obtain ⟨hop, hargs⟩ := Expr.apply.inj heq
  obtain ⟨hleft, hright⟩ := List.cons.inj hargs
  rw [← FunctionOp.compare.inj hop, ← hleft, ← (List.cons.inj hright).1, columnComparison?_simplify hl hr] at hcolumn
  exact hclass c op'' v hcolumn

/-- A filter compares its columns with the constants of its tests. -/
theorem IsFilter.comparesWithin {negations negated : Bool} (h : e.IsFilter negations)
    (hclass : ∀ t ∈ e.tests negated, t.constant.isNull = false → t.constant.valueClass = κ t.column) :
    e.ComparesWithin κ := by
  induction h generalizing negated with
  | literal x => exact comparesWithin_leaf rfl rfl rfl
  | @compare op left right hl hr =>
    refine comparesWithin_compare hl hr fun c op' v hcolumn => hclass ⟨c, op', v, negated⟩ ?_
    rw [Expr.compare, tests, hcolumn]
    simp
  | @junction j es _ ih =>
    rw [tests_junction] at hclass
    refine .intro _ (comparesAs_of_none (by cases j <;> rfl) (by cases j <;> rfl)) fun e he => ?_
    exact ih e he fun t ht => hclass t (List.mem_flatMap.2 ⟨e, he, ht⟩)
  | not hn h ih =>
    rw [tests_not] at hclass
    exact .intro _ (comparesAs_of_none rfl rfl) (List.forall_mem_singleton.2 (ih hclass))

/-- The column of a range term and the width of its range. -/
def rangeKey? (e : Expr) : Option (ColumnRef × ℕ) := e.rangeTerm?.map fun (c, r) => (c, r.width)

theorem not_mergeable_of_rangeKey? (h : ∀ key, e.rangeKey? = some key → f.rangeKey? ≠ some key) : ¬e.Mergeable f := by
  rintro ⟨c, r, s, her, hfs, hwidth, -⟩
  refine h (c, r.width) ?_ ?_
  · rw [rangeKey?, her]
    rfl
  · rw [rangeKey?, hfs, hwidth]
    rfl

/-- Of terms whose columns have one class each, those of one column and width may be merged. -/
theorem rangeKey?_ne (he : e.RangeOfClass κ) (hf : f.RangeOfClass κ) (h : ¬e.Mergeable f) {key key' : ColumnRef × ℕ}
    (hkey : e.rangeKey? = some key) (hkey' : f.rangeKey? = some key') : key ≠ key' := by
  obtain ⟨⟨c, r⟩, her, rfl⟩ := Option.map_eq_some_iff.1 hkey
  obtain ⟨⟨c', s⟩, hfs, rfl⟩ := Option.map_eq_some_iff.1 hkey'
  intro hsame
  obtain ⟨rfl, hwidth⟩ := Prod.mk.inj hsame
  exact h ⟨c, r, s, her, hfs, hwidth, (he _ _ her).sameClass (hf _ _ hfs)⟩

theorem rangeOfClass_rangeOrTruth {c : ColumnRef} {r : KeyRange} (h : r.OfClass (κ c)) :
    (rangeOrTruth c r).RangeOfClass κ := by
  intro c' r' hterm
  rcases rangeOrTruth_cases c r with heq | ⟨b, heq⟩
  · rw [heq] at hterm
    cases hterm
    exact h
  · rw [heq] at hterm
    cases hterm

theorem keptByMerging_rangeOfClass : KeptByMerging j (RangeOfClass κ) := fun _ _ _ _ _ he hf her hfs _ =>
  rangeOfClass_rangeOrTruth ((he _ _ her).combine (hf _ _ hfs))

/-- What is combined is of the column and width of the first of the two, or says of no column anything. -/
theorem rangeKey?_combine {c : ColumnRef} {r s : KeyRange} {key : ColumnRef × ℕ}
    (h : (rangeOrTruth c (j.combine r s)).rangeKey? = some key) : key = (c, r.width) := by
  rcases rangeOrTruth_cases c (j.combine r s) with heq | ⟨b, heq⟩
  · rw [heq] at h
    cases h
    cases j <;> rfl
  · rw [heq] at h
    cases h

/-- No two range terms are of one column and width. -/
theorem MergeStep.nodup {term : Expr} {result : List Expr} (hstep : MergeStep j merged term result)
    (hclass : ∀ e ∈ merged, e.RangeOfClass κ) (hterm : term.RangeOfClass κ)
    (h : (merged.filterMap rangeKey?).Nodup) : (result.filterMap rangeKey?).Nodup := by
  cases hstep with
  | last hnone =>
    rw [List.Nodup, List.pairwise_filterMap] at h ⊢
    refine List.pairwise_append.2 ⟨h, List.pairwise_singleton _ _, fun e he f hf key hkey key' hkey' => ?_⟩
    obtain rfl := List.mem_singleton.1 hf
    exact rangeKey?_ne (hclass e he) hterm (hnone e he) hkey hkey'
  | @into before after e c r s hsplit hbefore he hterm' hwidth hsame =>
    have hkey : e.rangeKey? = some (c, r.width) := by rw [rangeKey?, he]; rfl
    refine h.sublist ?_
    rw [hsplit, List.filterMap_append, List.filterMap_append, List.filterMap_cons_some hkey]
    refine (List.append_sublist_append_left _).2 ?_
    cases hcombined : (rangeOrTruth c (j.combine r s)).rangeKey? with
    | none =>
      rw [List.filterMap_cons_none hcombined]
      exact List.sublist_cons_self _ _
    | some key =>
      rw [List.filterMap_cons_some hcombined, rangeKey?_combine hcombined]

theorem nodup_foldl_mergeTerm (hclass : ∀ e ∈ merged, e.RangeOfClass κ) (hterms : ∀ e ∈ terms, e.RangeOfClass κ)
    (h : (merged.filterMap rangeKey?).Nodup) : ((terms.foldl (mergeTerm j) merged).filterMap rangeKey?).Nodup := by
  induction terms generalizing merged with
  | nil => exact h
  | cons term rest ih =>
    obtain ⟨hterm, hrest⟩ := List.forall_mem_cons.1 hterms
    have hstep := mergeTerm_cases j merged term
    exact ih (hstep.forall keptByMerging_rangeOfClass hclass hterm) hrest (hstep.nodup hclass hterm h)

/-! ### Simple trees -/

/-- The node is unmerged, and of the class of its column if it is a range term. -/
structure MergedAs (κ : ColumnRef → ValueClass) (e : Expr) : Prop where
  unmerged : e.Unmerged
  range : e.RangeOfClass κ

theorem mergedAs_of_ne (hother : ∀ (j : Junction) args, e ≠ apply j.op args) (h : e.RangeOfClass κ) : e.MergedAs κ :=
  ⟨fun j args he => absurd he (hother j args), h⟩

theorem mergedAs_literal (v : Value) : (literal v).MergedAs κ :=
  mergedAs_of_ne (fun j _ h => by cases h) fun c r h => by cases h

theorem throughout_mergedAs_inRange {c : ColumnRef} {r : KeyRange} (h : r.OfClass (κ c)) :
    (inRange c r).Throughout (MergedAs κ) := by
  refine throughout_inRange (mergedAs_of_ne (fun j _ h => by cases j <;> cases h) fun c' r' hterm => ?_)
    (mergedAs_of_ne (fun j _ h => by cases h) fun c r h => by cases h)
  cases hterm
  exact h

theorem throughout_mergedAs_terms (h : ∀ a ∈ args, a.Throughout (MergedAs κ)) :
    ∀ a ∈ args.flatMap fun e => (j.terms? e).getD [e], a.Throughout (MergedAs κ) := by
  intro t ht
  rcases mem_terms_cases ht with ⟨ht, -⟩ | ⟨es, hes, ht⟩
  · exact h t ht
  · exact (h _ hes).child ht

theorem throughout_mergedAs_mergedTerms (h : ∀ a ∈ args, a.Throughout (MergedAs κ)) :
    ∀ a ∈ mergedTerms j args, a.Throughout (MergedAs κ) := by
  refine forall_foldl_mergeTerm (fun e f c r s he hf her hfs _ => ?_) nofun (throughout_mergedAs_terms h)
  have hclass := (he.here.range _ _ her).combine (j := j) (hf.here.range _ _ hfs)
  rcases rangeOrTruth_cases c (j.combine r s) with heq | ⟨b, heq⟩
  · rw [heq]
    exact throughout_mergedAs_inRange hclass
  · rw [heq]
    exact throughout_literal mergedAs_literal _

theorem pairwise_mergedTerms (h : ∀ a ∈ args, a.Throughout (MergedAs κ)) :
    (mergedTerms j args).Pairwise fun e f => ¬e.Mergeable f := by
  have hnodup : ((mergedTerms j args).filterMap rangeKey?).Nodup :=
    nodup_foldl_mergeTerm nofun (fun a ha => (throughout_mergedAs_terms h a ha).here.range) .nil
  rw [List.Nodup, List.pairwise_filterMap] at hnodup
  exact hnodup.imp fun hne => not_mergeable_of_rangeKey? fun key hkey hkey' => hne key hkey key hkey' rfl

theorem throughout_mergedAs_simplifyNode (hnode : e.ComparesAs κ) (h : ∀ f ∈ e.children, f.Throughout (MergedAs κ)) :
    e.simplifyNode.Throughout (MergedAs κ) := by
  generalize hresult : e.simplifyNode = result
  have hstep := nodeStep_simplifyNode e
  rw [hresult] at hstep
  cases hstep with
  | keep hother hkeep => exact .intro _ (mergedAs_of_ne hother hnode.range) h
  | literal _ v => exact throughout_literal mergedAs_literal v
  | range hcolumn => exact throughout_mergedAs_inRange (KeyRange.ofClass_comparing (hnode.comparison _ _ _ rfl _ _ _ hcolumn))
  | term hterm => exact throughout_mergedAs_mergedTerms h _ hterm
  | @junction j args rest hterms htruth htwo hconstant =>
    refine .intro _ ⟨fun j' args' heq => ?_, fun c r hterm => ?_⟩ fun f hf =>
      throughout_mergedAs_mergedTerms h f (hterms.mem hf)
    · obtain ⟨rfl, rfl⟩ := junction_inj heq
      exact (pairwise_mergedTerms h).sublist hterms
    · cases j <;> cases hterm

theorem throughout_mergedAs_simplify (h : e.ComparesWithin κ) : e.simplify.Throughout (MergedAs κ) := by
  induction h with
  | intro e hnode _ ih =>
    rw [simplify_eq]
    refine throughout_mergedAs_simplifyNode hnode fun f hf => ?_
    rw [children_mapChildren] at hf
    obtain ⟨f', hf', rfl⟩ := List.mem_map.1 hf
    exact ih f' hf'

/-- A simple form is flat throughout. It is simplified no further exactly if no two terms of a junction in it may be
merged; else it becomes smaller, so that after finitely many rounds nothing changes. No two terms may be merged if
each column is compared with values of one class only. -/
theorem simplify_fixpoint (e : Expr) :
    e.simplify.Throughout Flat ∧
    ((e.simplify.simplify == e.simplify) = true ↔ e.simplify.Throughout Unmerged) ∧
    (e.simplify.Throughout Unmerged → e.simplify.simplify = e.simplify) ∧
    (¬e.simplify.Throughout Unmerged → e.simplify.simplify.size < e.simplify.size) ∧
    (∃ n ≤ e.size, simplify (simplify^[n] e.simplify) = simplify^[n] e.simplify) ∧
    ∀ κ, e.ComparesWithin κ → e.simplify.Throughout Unmerged ∧ e.simplify.simplify = e.simplify := by
  have hsettled := throughout_settled_simplify e
  have hfixed (h : e.simplify.Throughout Unmerged) : e.simplify.simplify = e.simplify := simplify_eq_self hsettled h
  refine ⟨hsettled.mono fun f hf => hf.flat, ⟨fun h => ?_, fun h => ?_⟩, hfixed, size_simplify_lt hsettled, ?_,
    fun κ hκ => ?_⟩
  · by_contra hmerge
    exact (size_simplify_lt hsettled hmerge).ne (size_eq_of_beq h)
  · rw [hfixed h]
    exact BEq.rfl
  · obtain ⟨n, hn, h⟩ := exists_iterate_fixed hsettled
    exact ⟨n, hn.trans (size_simplify_le e), h⟩
  · have hunmerged := (throughout_mergedAs_simplify hκ).mono fun f hf => hf.unmerged
    exact ⟨hunmerged, hfixed hunmerged⟩

/-- The column `x` is less than 5, the text `a`, or at least 5. The text keeps the numbers from merging with it, and
is alone once they have merged with each other. -/
def mixed : Expr :=
  let x := column ⟨⟨none, "t"⟩, "x"⟩
  apply .or [compare .lt x (literal (.int 5)), compare .eq x (literal (.text "a")), compare .ge x (literal (.int 5))]

/-- A mixed filter becomes smaller a second time, and a filter with numbers only does not. -/
theorem simplify_fixpoint_mixed : ¬mixed.simplify.Throughout Unmerged ∧
    mixed.simplify.simplify.size < mixed.simplify.size ∧ between.simplify.simplify = between.simplify := by
  obtain ⟨-, hiff, -, hsmaller, -, -⟩ := simplify_fixpoint mixed
  obtain ⟨-, -, -, -, -, honeClass⟩ := simplify_fixpoint between
  have hdiffer : (mixed.simplify.simplify == mixed.simplify) = false := by decide +kernel
  have hmerge : ¬mixed.simplify.Throughout Unmerged := fun h => by
    rw [hiff.2 h] at hdiffer
    cases hdiffer
  have hclass : ∀ t ∈ between.tests false, t.constant.isNull = false → t.constant.valueClass = .numeric := by decide
  have hfilter : between.IsFilter false := isFilter_between
  exact ⟨hmerge, hsmaller hmerge, (honeClass (fun _ => .numeric) (hfilter.comparesWithin hclass)).2⟩

end Expr

end JoinPlanner
