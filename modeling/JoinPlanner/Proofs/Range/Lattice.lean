import JoinPlanner.Proofs.Range.Equality
import JoinPlanner.Proofs.Range.Normal
import Mathlib.Order.Interval.Set.LinearOrder

/-!
# The lattice of key ranges

A range spans the places from each lower bound up to the upper one (`KeyRange.spanOf`). Two intervals that
touch leave no place out, so intersection and union are those of the spans; and a range in normal form is
known by its span, up to the representation of equal values (`KeyRange.Separated.beq_of_spanOf_eq`). The
ranges of one width so form a bounded distributive lattice (`KeyRange.Obtained.latticeLaws`).
-/

namespace JoinPlanner

theorem KeyBound.beq_of_place_eq {w : ℕ} {a b : KeyBound} (ha : a.HasWidth w) (hb : b.HasWidth w)
    (h : a.place w = b.place w) : (a == b) = true := by
  have hplaces {key : Key} (hkey : key.length = w) : key.places w = key.map Value.place := by
    rw [Key.places, List.take_of_length_le hkey.le]
  cases a <;> cases b
  case before.before a b =>
    have : a.places w = b.places w := by simpa [place] using h
    rw [hplaces (ha a rfl), hplaces (hb b rfl)] at this
    exact Key.beq_iff.2 this
  case after.after a b =>
    have : a.places w = b.places w := by simpa [place] using h
    rw [hplaces (ha a rfl), hplaces (hb b rfl)] at this
    exact Key.beq_iff.2 this
  case beforeFirst.beforeFirst | first.first | last.last | afterLast.afterLast => rfl
  -- bounds of two sorts have places of two sorts
  all_goals simp [place] at h

theorem KeyBound.beforeFirst_place_le {w : ℕ} {b : KeyBound} : beforeFirst.place w ≤ b.place w := by
  cases b <;> simp [place, Prod.Lex.toLex_le_toLex]

theorem KeyBound.place_le_afterLast {w : ℕ} {b : KeyBound} : b.place w ≤ afterLast.place w := by
  cases b <;> simp [place, Prod.Lex.toLex_le_toLex]

namespace KeyInterval

variable {w : ℕ} {i j : KeyInterval}

/-- The places from the lower bound up to the upper one, which lies outside. -/
def span (w : ℕ) (i : KeyInterval) : Set KeyPlace := Set.Ico (i.lower.place w) (i.upper.place w)

theorem span_inter (hi : i.HasWidth w) (hj : j.HasWidth w) : (i.inter j).span w = i.span w ∩ j.span w := by
  rw [span, lower_inter hi hj, upper_inter hi hj]
  exact Set.Ico_inter_Ico.symm

theorem span_hull (hi : i.HasWidth w) (hj : j.HasWidth w) (h : j.meets i = true) :
    (i.hull j).span w = i.span w ∪ j.span w := by
  obtain ⟨hji, hij⟩ := (meets_iff hj hi).1 h
  rw [span, lower_hull hi hj, upper_hull hi hj]
  exact (Set.Ico_union_Ico' hji hij).symm

theorem span_of_isEmpty (hi : i.HasWidth w) (h : i.isEmpty = true) : i.span w = ∅ :=
  Set.Ico_eq_empty (not_lt.2 ((isEmpty_iff hi).1 h))

end KeyInterval

namespace KeyRange

variable {w : ℕ} {intervals : List KeyInterval} {i : KeyInterval}

/-- The places that a list of intervals spans. -/
def spanOf (w : ℕ) (intervals : List KeyInterval) : Set KeyPlace := {p | ∃ i ∈ intervals, p ∈ i.span w}

@[simp] theorem spanOf_nil : spanOf w [] = ∅ := by simp [spanOf]

@[simp] theorem spanOf_cons : spanOf w (i :: intervals) = i.span w ∪ spanOf w intervals := by
  ext p
  simp [spanOf]

theorem spanOf_perm {l : List KeyInterval} (h : intervals.Perm l) : spanOf w intervals = spanOf w l := by
  ext p
  exact exists_congr fun k => and_congr_left fun _ => h.mem_iff

theorem spanOf_insertInterval : spanOf w (insertInterval intervals i) = i.span w ∪ spanOf w intervals := by
  ext p
  simp [spanOf, mem_insertInterval]

theorem spanOf_absorb (hl : ∀ j ∈ intervals, j.HasWidth w) (hi : i.HasWidth w) :
    spanOf w (absorb intervals i) = i.span w ∪ spanOf w intervals := by
  fun_induction absorb intervals i with
  | case1 intervals i j hfind ih =>
    have hj := hl j (List.mem_of_find?_eq_some hfind)
    have hmeets := List.find?_some hfind
    rw [ih (fun k hk => hl k (List.mem_of_mem_eraseP hk)) (hi.hull hj), spanOf_perm (perm_cons_eraseP hfind),
      KeyInterval.span_hull hi hj hmeets, spanOf_cons, Set.union_assoc]
  | case2 intervals i hfind => exact spanOf_insertInterval

theorem spanOf_foldl_absorb {more : List KeyInterval} (hl : ∀ j ∈ intervals, j.HasWidth w)
    (hm : ∀ j ∈ more, j.HasWidth w) :
    spanOf w (more.foldl absorb intervals) = spanOf w more ∪ spanOf w intervals := by
  induction more generalizing intervals with
  | nil => simp
  | cons i more ih =>
    obtain ⟨hi, hm⟩ := List.forall_mem_cons.1 hm
    rw [List.foldl_cons, ih (hasWidth_absorb hl hi) hm, spanOf_absorb hl hi, spanOf_cons, Set.union_left_comm,
      Set.union_assoc]

theorem spanOf_ofIntervals (hl : ∀ j ∈ intervals, j.HasWidth w) :
    spanOf w (ofIntervals w intervals).intervals = spanOf w intervals := by
  rw [ofIntervals, spanOf_foldl_absorb (by simp) fun j hj => hl j (List.mem_of_mem_filter hj), spanOf_nil,
    Set.union_empty]
  ext p
  constructor
  · rintro ⟨i, hi, hp⟩
    exact ⟨i, List.mem_of_mem_filter hi, hp⟩
  · rintro ⟨i, hi, hp⟩
    refine ⟨i, List.mem_filter.2 ⟨hi, ?_⟩, hp⟩
    cases hempty : i.isEmpty with
    | false => rfl
    | true => rw [KeyInterval.span_of_isEmpty (hl i hi) hempty] at hp; cases hp

namespace Separated

variable {l : List KeyInterval} {j : KeyInterval}

theorem lower_le_of_mem (h : Separated w (i :: intervals)) {p : KeyPlace} (hp : p ∈ spanOf w (i :: intervals)) :
    i.lower.place w ≤ p := by
  obtain ⟨-, hlt, hbelow, -⟩ := cons_iff.1 h
  obtain ⟨k, hk, hp⟩ := hp
  rcases List.mem_cons.1 hk with rfl | hk
  · exact hp.1
  · exact (hlt.trans (hbelow k hk)).le.trans hp.1

theorem lower_mem (h : Separated w (i :: intervals)) : i.lower.place w ∈ spanOf w (i :: intervals) :=
  ⟨i, List.mem_cons_self, le_rfl, (cons_iff.1 h).2.1⟩

/-- The upper bound of the first interval is not spanned: the others begin above it. -/
theorem upper_not_mem (h : Separated w (i :: intervals)) : i.upper.place w ∉ spanOf w (i :: intervals) := by
  obtain ⟨-, hlt, hbelow, -⟩ := cons_iff.1 h
  rintro ⟨k, hk, hp⟩
  rcases List.mem_cons.1 hk with rfl | hk
  · exact lt_irrefl _ hp.2
  · exact absurd hp.1 (not_le.2 (hbelow k hk))

theorem mem_tail_iff (h : Separated w (i :: intervals)) {p : KeyPlace} :
    p ∈ spanOf w intervals ↔ p ∈ spanOf w (i :: intervals) ∧ i.upper.place w < p := by
  obtain ⟨-, hlt, hbelow, -⟩ := cons_iff.1 h
  rw [spanOf_cons]
  constructor
  · rintro ⟨k, hk, hp⟩
    exact ⟨.inr ⟨k, hk, hp⟩, (hbelow k hk).trans_le hp.1⟩
  · rintro ⟨hp | hp, habove⟩
    · exact absurd hp.2 (not_lt.2 habove.le)
    · exact hp

theorem lower_le (h : Separated w (i :: intervals)) (hl : Separated w (j :: l))
    (heq : spanOf w (i :: intervals) = spanOf w (j :: l)) : i.lower.place w ≤ j.lower.place w :=
  h.lower_le_of_mem (heq ▸ hl.lower_mem)

theorem upper_le (h : Separated w (i :: intervals)) (hl : Separated w (j :: l))
    (heq : spanOf w (i :: intervals) = spanOf w (j :: l)) : i.upper.place w ≤ j.upper.place w := by
  by_contra hlt
  -- else the upper bound of the second lies in the first
  refine hl.upper_not_mem (heq ▸ ⟨i, List.mem_cons_self, ?_, not_le.1 hlt⟩)
  exact (h.lower_le hl heq).trans (cons_iff.1 hl).2.1.le

theorem beq_of_spanOf_eq (h : Separated w intervals) (hl : Separated w l)
    (heq : spanOf w intervals = spanOf w l) : (intervals == l) = true := by
  induction intervals generalizing l with
  | nil =>
    cases l with
    | nil => rfl
    | cons j l => exact absurd (heq ▸ hl.lower_mem) (by simp)
  | cons i intervals ih =>
    cases l with
    | nil => exact absurd (heq ▸ h.lower_mem) (by simp)
    | cons j l =>
      have hlower : i.lower.place w = j.lower.place w := (h.lower_le hl heq).antisymm (hl.lower_le h heq.symm)
      have hupper : i.upper.place w = j.upper.place w := (h.upper_le hl heq).antisymm (hl.upper_le h heq.symm)
      obtain ⟨hi, -, -, hrest⟩ := cons_iff.1 h
      obtain ⟨hj, -, -, hrest'⟩ := cons_iff.1 hl
      have htails : (intervals == l) = true := by
        refine ih hrest hrest' (Set.ext fun p => ?_)
        rw [h.mem_tail_iff, hl.mem_tail_iff, heq, hupper]
      have hheads : (i == j) = true := Bool.and_eq_true_iff.2
        ⟨KeyBound.beq_of_place_eq hi.lower hj.lower hlower, KeyBound.beq_of_place_eq hi.upper hj.upper hupper⟩
      exact Bool.and_eq_true_iff.2 ⟨hheads, htails⟩

end Separated

/-! ### The laws -/

/-- The range is in normal form and spans the places of `A`. -/
structure Spans (w : ℕ) (A : Set KeyPlace) (r : KeyRange) : Prop where
  width : r.width = w
  separated : Separated w r.intervals
  span : spanOf w r.intervals = A

/-- The computation yields a range that spans the places of `A`. -/
def Yields (w : ℕ) (A : Set KeyPlace) (x : Except RangeError KeyRange) : Prop := ∃ r, x = .ok r ∧ Spans w A r

variable {A B : Set KeyPlace} {r s t : KeyRange} {x y : Except RangeError KeyRange}

theorem Obtained.spans (h : r.Obtained) (hw : r.width = w) : Spans w (spanOf w r.intervals) r :=
  ⟨hw, hw ▸ h.separated, rfl⟩

theorem Spans.beq (hr : Spans w A r) (hs : Spans w A s) : (r == s) = true :=
  Bool.and_eq_true_iff.2 ⟨beq_iff_eq.2 (hr.width.trans hs.width.symm),
    hr.separated.beq_of_spanOf_eq hs.separated (hr.span.trans hs.span.symm)⟩

theorem Spans.inter (hr : Spans w A r) (hs : Spans w B s) : Yields w (A ∩ B) (r.inter s) := by
  obtain ⟨rfl, hr, rfl⟩ := hr
  obtain ⟨hw, hs, rfl⟩ := hs
  have hinters := hasWidth_inters hr.hasWidth hs.hasWidth
  refine ⟨_, inter_eq_ok.2 ⟨hw.symm, rfl⟩, rfl, .ofIntervals hinters, ?_⟩
  rw [interSameWidth, spanOf_ofIntervals hinters]
  ext p
  constructor
  · rintro ⟨k, hk, hp⟩
    simp only [List.mem_flatMap, List.mem_map] at hk
    obtain ⟨i, hi, j, hj, rfl⟩ := hk
    rw [KeyInterval.span_inter (hr.hasWidth i hi) (hs.hasWidth j hj)] at hp
    exact ⟨⟨i, hi, hp.1⟩, ⟨j, hj, hp.2⟩⟩
  · rintro ⟨⟨i, hi, hpi⟩, ⟨j, hj, hpj⟩⟩
    refine ⟨i.inter j, List.mem_flatMap.2 ⟨i, hi, List.mem_map_of_mem hj⟩, ?_⟩
    rw [KeyInterval.span_inter (hr.hasWidth i hi) (hs.hasWidth j hj)]
    exact ⟨hpi, hpj⟩

theorem Spans.union (hr : Spans w A r) (hs : Spans w B s) : Yields w (A ∪ B) (r.union s) := by
  obtain ⟨rfl, hr, rfl⟩ := hr
  obtain ⟨hw, hs, rfl⟩ := hs
  refine ⟨_, union_eq_ok.2 ⟨hw.symm, rfl⟩, rfl, hs.foldl_absorb fun i hi => ?_, ?_⟩
  · exact ⟨hr.hasWidth i hi, hr.lower_lt i hi⟩
  · exact spanOf_foldl_absorb hs.hasWidth hr.hasWidth

theorem spanOf_subset_full (w : ℕ) (intervals : List KeyInterval) :
    spanOf w intervals ⊆ spanOf w (full w).intervals := by
  rintro p ⟨i, -, hp⟩
  exact ⟨_, List.mem_singleton_self _, KeyBound.beforeFirst_place_le.trans hp.1,
    hp.2.trans_le KeyBound.place_le_afterLast⟩

theorem spans_empty (w : ℕ) : Spans w ∅ (empty w) := ⟨rfl, .nil, spanOf_nil⟩

theorem Yields.bind {f : KeyRange → Except RangeError KeyRange} (hx : Yields w A x)
    (hf : ∀ r, Spans w A r → Yields w B (f r)) : Yields w B (x >>= f) := by
  obtain ⟨r, rfl, hr⟩ := hx
  exact hf r hr

/-- Both computations yield a range, and the two ranges are equal. -/
def SameResult (x y : Except RangeError KeyRange) : Prop := ∃ r s, x = .ok r ∧ y = .ok s ∧ (r == s) = true

theorem Yields.same (hx : Yields w A x) (hy : Yields w B y) (h : A = B) : SameResult x y := by
  obtain ⟨r, rfl, hr⟩ := hx
  obtain ⟨s, rfl, hs⟩ := hy
  exact ⟨r, s, rfl, rfl, hr.beq (h ▸ hs)⟩

/-- The laws of a bounded distributive lattice, for three ranges. -/
structure LatticeLaws (r s t : KeyRange) : Prop where
  inter_comm : SameResult (r.inter s) (s.inter r)
  union_comm : SameResult (r.union s) (s.union r)
  inter_assoc : SameResult (do (← r.inter s).inter t) (do r.inter (← s.inter t))
  union_assoc : SameResult (do (← r.union s).union t) (do r.union (← s.union t))
  inter_self : SameResult (r.inter r) (.ok r)
  union_self : SameResult (r.union r) (.ok r)
  union_inter_self : SameResult (do r.union (← r.inter s)) (.ok r)
  inter_union_self : SameResult (do r.inter (← r.union s)) (.ok r)
  inter_union : SameResult (do r.inter (← s.union t)) (do (← r.inter s).union (← r.inter t))
  union_inter : SameResult (do r.union (← s.inter t)) (do (← r.union s).inter (← r.union t))
  inter_full : SameResult (r.inter (full r.width)) (.ok r)
  union_full : SameResult (r.union (full r.width)) (.ok (full r.width))
  union_empty : SameResult (r.union (empty r.width)) (.ok r)
  inter_empty : SameResult (r.inter (empty r.width)) (.ok (empty r.width))

theorem Obtained.latticeLaws (hr : r.Obtained) (hs : s.Obtained) (ht : t.Obtained) (h : s.width = r.width)
    (h' : t.width = r.width) : LatticeLaws r s t := by
  have hr := hr.spans rfl
  have hs := hs.spans h
  have ht := ht.spans h'
  have hfull := (Obtained.full r.width).spans rfl
  have hempty := spans_empty r.width
  have hsub := spanOf_subset_full r.width r.intervals
  have hyield {A : Set KeyPlace} {r' : KeyRange} (h : Spans r.width A r') : Yields r.width A (.ok r') := ⟨_, rfl, h⟩
  constructor
  case inter_comm => exact (hr.inter hs).same (hs.inter hr) (Set.inter_comm _ _)
  case union_comm => exact (hr.union hs).same (hs.union hr) (Set.union_comm _ _)
  case inter_assoc =>
    exact ((hr.inter hs).bind fun _ h => h.inter ht).same ((hs.inter ht).bind fun _ h => hr.inter h)
      (Set.inter_assoc _ _ _)
  case union_assoc =>
    exact ((hr.union hs).bind fun _ h => h.union ht).same ((hs.union ht).bind fun _ h => hr.union h)
      (Set.union_assoc _ _ _)
  case inter_self => exact (hr.inter hr).same (hyield hr) (Set.inter_self _)
  case union_self => exact (hr.union hr).same (hyield hr) (Set.union_self _)
  case union_inter_self =>
    exact ((hr.inter hs).bind fun _ h => hr.union h).same (hyield hr) sup_inf_self
  case inter_union_self =>
    exact ((hr.union hs).bind fun _ h => hr.inter h).same (hyield hr) inf_sup_self
  case inter_union =>
    exact ((hs.union ht).bind fun _ h => hr.inter h).same
      ((hr.inter hs).bind fun _ h => (hr.inter ht).bind fun _ h' => h.union h') (Set.inter_union_distrib_left _ _ _)
  case union_inter =>
    exact ((hs.inter ht).bind fun _ h => hr.union h).same
      ((hr.union hs).bind fun _ h => (hr.union ht).bind fun _ h' => h.inter h') (Set.union_inter_distrib_left _ _ _)
  case inter_full => exact (hr.inter hfull).same (hyield hr) (Set.inter_eq_left.2 hsub)
  case union_full => exact (hr.union hfull).same (hyield hfull) (Set.union_eq_right.2 hsub)
  case union_empty => exact (hr.union hempty).same (hyield hr) (Set.union_empty _)
  case inter_empty => exact (hr.inter hempty).same (hyield hempty) (Set.inter_empty _)

/-- Ranges of keys of two columns, with bounds that begin with NULL, and one that is a union. -/
theorem Obtained.latticeLaws_composite :
    ∃ t, (comparing .lt [.int 3, .text "a"]).union (comparing .le [.null, .int 4]) = .ok t ∧
      LatticeLaws (comparing .isNot [.null, .int 4]) (comparing .gt [.int 3, .null]) t := by
  have hunion : (comparing .lt [.int 3, .text "a"]).union (comparing .le [.null, .int 4]) = .ok _ :=
    union_eq_ok.2 ⟨rfl, rfl⟩
  have ht := (obtained_comparing .lt (by simp)).union (obtained_comparing .le (by simp)) hunion
  exact ⟨_, hunion, (obtained_comparing .isNot (by simp)).latticeLaws (obtained_comparing .gt (by simp)) ht rfl rfl⟩

end KeyRange

end JoinPlanner
