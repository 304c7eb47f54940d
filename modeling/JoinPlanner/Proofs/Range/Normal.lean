import JoinPlanner.Proofs.Range.Membership
import JoinPlanner.Proofs.Wire.KeyRange

/-!
# The normal form of key ranges

Whatever a range was obtained from, its intervals are not empty, and each ends strictly below the next
(`KeyRange.Obtained.normal_form`): absorbing an interval keeps this (`KeyRange.Separated.absorb`), since an
interval that meets none of a list lies between two of them. Absorbing adds at most one interval, so a union
has at most as many as its two parts together.
-/

namespace JoinPlanner

namespace KeyRange

variable {w : ℕ} {intervals : List KeyInterval} {i j : KeyInterval} {r s t : KeyRange}

/-- Intervals of keys of width `w`, none empty, each strictly below the next. -/
structure Separated (w : ℕ) (intervals : List KeyInterval) : Prop where
  hasWidth : ∀ i ∈ intervals, i.HasWidth w
  lower_lt : ∀ i ∈ intervals, i.lower.place w < i.upper.place w
  apart : intervals.Pairwise fun i j => i.upper.place w < j.lower.place w

namespace Separated

theorem nil : Separated w [] := ⟨nofun, nofun, .nil⟩

theorem cons_iff : Separated w (i :: intervals) ↔ i.HasWidth w ∧ i.lower.place w < i.upper.place w ∧
    (∀ j ∈ intervals, i.upper.place w < j.lower.place w) ∧ Separated w intervals := by
  constructor
  · rintro ⟨hwidth, hlt, hapart⟩
    obtain ⟨hi, hwidth⟩ := List.forall_mem_cons.1 hwidth
    obtain ⟨hlti, hlt⟩ := List.forall_mem_cons.1 hlt
    obtain ⟨hbelow, hapart⟩ := List.pairwise_cons.1 hapart
    exact ⟨hi, hlti, hbelow, hwidth, hlt, hapart⟩
  · rintro ⟨hi, hlti, hbelow, hwidth, hlt, hapart⟩
    exact ⟨List.forall_mem_cons.2 ⟨hi, hwidth⟩, List.forall_mem_cons.2 ⟨hlti, hlt⟩,
      List.pairwise_cons.2 ⟨hbelow, hapart⟩⟩

theorem sublist {l : List KeyInterval} (h : Separated w intervals) (hl : l.Sublist intervals) : Separated w l :=
  ⟨fun i hi => h.hasWidth i (hl.mem hi), fun i hi => h.lower_lt i (hl.mem hi), h.apart.sublist hl⟩

end Separated

theorem insertInterval_cons : insertInterval (j :: intervals) i =
    if j.lower.compare i.lower != .gt then j :: insertInterval intervals i else i :: j :: intervals := by
  simp only [insertInterval, List.takeWhile_cons, List.dropWhile_cons]
  split <;> rfl

/-- An interval that meets none of the list stands apart from each. -/
theorem Separated.insertInterval (h : Separated w intervals) (hi : i.HasWidth w)
    (hlt : i.lower.place w < i.upper.place w) (hmeets : ∀ j ∈ intervals, j.meets i = false) :
    Separated w (insertInterval intervals i) := by
  induction intervals with
  | nil => exact cons_iff.2 ⟨hi, hlt, nofun, .nil⟩
  | cons j rest ih =>
    obtain ⟨hj, hltj, hbelow, hrest⟩ := cons_iff.1 h
    obtain ⟨hmeetsj, hmeets⟩ := List.forall_mem_cons.1 hmeets
    have hsides : i.upper.place w < j.lower.place w ∨ j.upper.place w < i.lower.place w := by
      rw [← Bool.not_eq_true, KeyInterval.meets_iff hj hi, not_and_or, not_le, not_le] at hmeetsj
      exact hmeetsj
    have hcompare := KeyBound.compares_place hj.lower hi.lower
    rw [insertInterval_cons]
    simp only [bne_iff_ne]
    split
    · next hle =>
      have hij : j.upper.place w < i.lower.place w :=
        hsides.resolve_left fun hlt' => absurd (hcompare.ne_gt.1 hle) (not_le.2 (hlt.trans hlt'))
      refine cons_iff.2 ⟨hj, hltj, fun k hk => ?_, ih hrest hmeets⟩
      rcases mem_insertInterval.1 hk with rfl | hk
      · exact hij
      · exact hbelow k hk
    · next hgt =>
      have hlower : i.lower.place w < j.lower.place w := hcompare.eq_gt.1 (not_not.1 hgt)
      have hij : i.upper.place w < j.lower.place w :=
        hsides.resolve_right fun hlt' => absurd (hlower.trans hltj) (not_lt.2 hlt'.le)
      refine cons_iff.2 ⟨hi, hlt, fun k hk => ?_, h⟩
      rcases List.mem_cons.1 hk with rfl | hk
      · exact hij
      · exact hij.trans (hltj.trans (hbelow k hk))

theorem Separated.absorb (h : Separated w intervals) (hi : i.HasWidth w)
    (hlt : i.lower.place w < i.upper.place w) : Separated w (absorb intervals i) := by
  fun_induction KeyRange.absorb intervals i with
  | case1 intervals i j hfind ih =>
    have hj := h.hasWidth j (List.mem_of_find?_eq_some hfind)
    refine ih (h.sublist List.eraseP_sublist) (hi.hull hj) ?_
    rw [KeyInterval.lower_hull hi hj, KeyInterval.upper_hull hi hj]
    exact (min_le_left _ _).trans_lt (hlt.trans_le (le_max_left _ _))
  | case2 intervals i hfind =>
    refine h.insertInterval hi hlt fun j hj => ?_
    exact Bool.not_eq_true _ ▸ List.find?_eq_none.1 hfind j hj

theorem Separated.foldl_absorb {more : List KeyInterval} (h : Separated w intervals)
    (hm : ∀ i ∈ more, i.HasWidth w ∧ i.lower.place w < i.upper.place w) :
    Separated w (more.foldl KeyRange.absorb intervals) := by
  induction more generalizing intervals with
  | nil => exact h
  | cons i more ih =>
    obtain ⟨⟨hi, hlt⟩, hm⟩ := List.forall_mem_cons.1 hm
    exact ih (h.absorb hi hlt) hm

theorem Separated.ofIntervals (hl : ∀ i ∈ intervals, i.HasWidth w) :
    Separated w (ofIntervals w intervals).intervals := by
  refine Separated.nil.foldl_absorb fun i hi => ?_
  obtain ⟨hi, hempty⟩ := List.mem_filter.1 hi
  refine ⟨hl i hi, not_le.1 fun hle => ?_⟩
  rw [(KeyInterval.isEmpty_iff (hl i hi)).2 hle] at hempty
  cases hempty

theorem length_insertInterval : (insertInterval intervals i).length = intervals.length + 1 := by
  induction intervals with
  | nil => rfl
  | cons j rest ih =>
    rw [insertInterval_cons]
    split
    · rw [List.length_cons, ih, List.length_cons]
    · rfl

theorem length_absorb_le : (absorb intervals i).length ≤ intervals.length + 1 := by
  fun_induction absorb intervals i with
  | case1 intervals i j hfind ih =>
    have herase := (List.eraseP_sublist (p := (·.meets i)) (l := intervals)).length_le
    omega
  | case2 intervals i hfind => rw [length_insertInterval]

theorem length_foldl_absorb_le {more : List KeyInterval} :
    (more.foldl absorb intervals).length ≤ more.length + intervals.length := by
  induction more generalizing intervals with
  | nil => simp
  | cons i more ih =>
    have hrest : (more.foldl absorb (absorb intervals i)).length ≤ _ := ih
    have habsorb : (absorb intervals i).length ≤ _ := length_absorb_le
    rw [List.foldl_cons, List.length_cons]
    omega

theorem absorb_ne_nil : absorb intervals i ≠ [] := by
  fun_induction absorb intervals i with
  | case1 intervals i j hfind ih => exact ih
  | case2 intervals i hfind =>
    refine List.ne_nil_of_length_pos ?_
    rw [length_insertInterval]
    exact Nat.succ_pos _

/-- No interval is lost altogether. -/
theorem foldl_absorb_eq_nil_iff {more : List KeyInterval} :
    more.foldl absorb intervals = [] ↔ more = [] ∧ intervals = [] := by
  induction more generalizing intervals with
  | nil => simp
  | cons i more ih => simp [ih, absorb_ne_nil]

theorem isEmpty_ofIntervals : (ofIntervals w intervals).isEmpty = intervals.all (·.isEmpty) := by
  rw [Bool.eq_iff_iff, isEmpty, List.isEmpty_iff, ofIntervals, foldl_absorb_eq_nil_iff, and_iff_left rfl]
  simp

theorem isEmpty_unionSameWidth : (r.unionSameWidth s).isEmpty = (r.isEmpty && s.isEmpty) := by
  rw [Bool.eq_iff_iff, Bool.and_eq_true, isEmpty, isEmpty, isEmpty, List.isEmpty_iff, List.isEmpty_iff,
    List.isEmpty_iff, unionSameWidth, foldl_absorb_eq_nil_iff]

theorem Separated.interSameWidth (hr : Separated r.width r.intervals) (hs : Separated s.width s.intervals)
    (h : r.width = s.width) : Separated r.width (r.interSameWidth s).intervals :=
  .ofIntervals (hasWidth_inters hr.hasWidth (h ▸ hs.hasWidth))

theorem Separated.unionSameWidth (hr : Separated r.width r.intervals) (hs : Separated s.width s.intervals)
    (h : r.width = s.width) : Separated r.width (r.unionSameWidth s).intervals :=
  Separated.foldl_absorb (h ▸ hs) fun i hi => ⟨hr.hasWidth i hi, hr.lower_lt i hi⟩

/-- The ranges that come from comparisons, from lists of intervals of their width, from reading and from the
operations on ranges. -/
inductive Obtained : KeyRange → Prop
  | comparison {op : Comparison} {key : Key} {r : KeyRange} (h : ofComparison op key = .ok r) : Obtained r
  | full (w : ℕ) : Obtained (full w)
  | empty (w : ℕ) : Obtained (empty w)
  | ofIntervals {w : ℕ} {intervals : List KeyInterval} (h : ∀ i ∈ intervals, i.HasWidth w) :
    Obtained (ofIntervals w intervals)
  | read {d : Wire.Data} {tolerance : Wire.Tolerance} {r : KeyRange} (h : KeyRange.read d tolerance = .ok r) :
    Obtained r
  | inter {r s t : KeyRange} (hr : Obtained r) (hs : Obtained s) (h : r.inter s = .ok t) : Obtained t
  | union {r s t : KeyRange} (hr : Obtained r) (hs : Obtained s) (h : r.union s = .ok t) : Obtained t

theorem obtained_comparing (op : Comparison) {key : Key} (h : key ≠ []) : (comparing op key).Obtained := by
  have hmade : ofComparison op key = .ok (comparing op key) := by
    rw [ofComparison, if_neg (by simpa using h)]
  exact .comparison hmade

theorem Obtained.separated (h : r.Obtained) : Separated r.width r.intervals := by
  induction h with
  | @comparison op key r h =>
    unfold ofComparison at h
    split at h
    · cases h
    · cases h
      exact .ofIntervals (hasWidth_comparisonIntervals op key)
  | full w =>
    refine Separated.cons_iff.2 ⟨⟨nofun, nofun⟩, ?_, nofun, .nil⟩
    simp [KeyBound.place, Prod.Lex.toLex_lt_toLex]
  | empty w => exact .nil
  | ofIntervals h => exact .ofIntervals h
  | read h =>
    obtain ⟨w, intervals, hfits, rfl⟩ := exists_ofIntervals_of_read h
    exact .ofIntervals (hasWidth_of_fits hfits)
  | inter _ _ h ihr ihs =>
    obtain ⟨hwidth, rfl⟩ := inter_eq_ok.1 h
    exact ihr.interSameWidth ihs hwidth
  | union _ _ h ihr ihs =>
    obtain ⟨hwidth, rfl⟩ := union_eq_ok.1 h
    exact ihr.unionSameWidth ihs hwidth

theorem Obtained.wellFormed (h : r.Obtained) (hw : 0 < r.width) : r.WellFormed := ⟨hw, h.separated.hasWidth⟩

/-- The form in which ranges are kept. -/
structure Normal (r : KeyRange) : Prop where
  hasWidth : ∀ i ∈ r.intervals, i.HasWidth r.width
  nonempty : ∀ i ∈ r.intervals, i.lower.compare i.upper = .lt
  /-- No two intervals overlap or touch, and they stand in their order. -/
  apart : r.intervals.Pairwise fun i j => i.upper.compare j.lower = .lt

theorem Separated.normal (h : Separated r.width r.intervals) : r.Normal where
  hasWidth := h.hasWidth
  nonempty i hi := by
    have hwidth := h.hasWidth i hi
    exact (KeyBound.compares_place hwidth.lower hwidth.upper).eq_lt.2 (h.lower_lt i hi)
  apart := h.apart.imp_of_mem fun {i j} hi hj hlt =>
    (KeyBound.compares_place (h.hasWidth i hi).upper (h.hasWidth j hj).lower).eq_lt.2 hlt

/-- Ranges are always in their normal form, a union has no more intervals than its parts, and nothing but
different widths makes an operation fail. -/
theorem Obtained.normal_form (hr : r.Obtained) (hs : s.Obtained) :
    r.Normal ∧ (∀ t, r.inter s = .ok t → t.Normal) ∧
      (∀ t, r.union s = .ok t → t.Normal ∧ t.count ≤ r.count + s.count) ∧
      ((∃ e, r.inter s = .error e) ↔ r.width ≠ s.width) ∧ ((∃ e, r.union s = .error e) ↔ r.width ≠ s.width) := by
  refine ⟨hr.separated.normal, fun t ht => ?_, fun t ht => ⟨?_, ?_⟩, ?_, ?_⟩
  · exact (hr.inter hs ht).separated.normal
  · exact (hr.union hs ht).separated.normal
  · obtain ⟨-, rfl⟩ := union_eq_ok.1 ht
    exact length_foldl_absorb_le
  · unfold KeyRange.inter
    split <;> simp [*]
  · unfold KeyRange.union
    split <;> simp [*]

/-- Two ranges that touch, and one of another width. -/
theorem Obtained.normal_form_touching :
    (comparing .lt [.int 5]).Normal ∧
      (∃ t, (comparing .lt [.int 5]).union (comparing .ge [.int 5]) = .ok t ∧ t.Normal ∧ t.count ≤ 2) ∧
      ∃ e, (comparing .lt [.int 5]).inter (comparing .eq [.null, .int 2]) = .error e := by
  have hlt : (comparing .lt [.int 5]).Obtained := obtained_comparing _ (by simp)
  have hge : (comparing .ge [.int 5]).Obtained := obtained_comparing _ (by simp)
  have heq : (comparing .eq [.null, .int 2]).Obtained := obtained_comparing _ (by simp)
  obtain ⟨hnormal, -, hunion, -⟩ := hlt.normal_form hge
  obtain ⟨-, -, -, hfails, -⟩ := hlt.normal_form heq
  obtain ⟨t, ht⟩ : ∃ t, (comparing .lt [.int 5]).union (comparing .ge [.int 5]) = .ok t := ⟨_, union_eq_ok.2 ⟨rfl, rfl⟩⟩
  obtain ⟨hnormal', hcount⟩ := hunion t ht
  have hone : (comparing .lt [.int 5]).count = 1 ∧ (comparing .ge [.int 5]).count = 1 := by decide +kernel
  rw [hone.1, hone.2] at hcount
  exact ⟨hnormal, ⟨t, ht, hnormal', hcount⟩, hfails.2 (by decide)⟩

end KeyRange

end JoinPlanner
