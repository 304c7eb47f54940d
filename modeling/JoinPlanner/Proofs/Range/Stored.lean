import JoinPlanner.Proofs.Range.Normal

/-!
# Ranges that can be stored

A range in normal form is made of its own intervals (`KeyRange.ofIntervals_eq_of_obtained`). Read back, it is
therefore the range that was written, if its width fits and no bound is of a key without values
(`KeyRange.Storable`); union and intersection keep this.
-/

namespace JoinPlanner

theorem KeyBound.HasWidth.fits {w : ℕ} {b : KeyBound} (h : b.HasWidth w) (hkey : b.key? ≠ some []) : b.Fits w :=
  fun key hb => ⟨List.length_pos_iff.2 (by rintro rfl; exact hkey hb), h key hb⟩

theorem KeyBound.Fits.key?_ne {w : ℕ} {b : KeyBound} (h : b.Fits w) : b.key? ≠ some [] := fun hkey => by
  simpa using (h [] hkey).1

/-- No bound is of the key without values. -/
def KeyInterval.Keyed (i : KeyInterval) : Prop := i.lower.key? ≠ some [] ∧ i.upper.key? ≠ some []

namespace KeyInterval.Keyed

variable {i j : KeyInterval}

theorem hull (hi : i.Keyed) (hj : j.Keyed) : (i.hull j).Keyed := by
  unfold KeyInterval.hull
  constructor <;> dsimp only <;> split
  · exact hj.1
  · exact hi.1
  · exact hj.2
  · exact hi.2

theorem inter (hi : i.Keyed) (hj : j.Keyed) : (i.inter j).Keyed := by
  unfold KeyInterval.inter
  constructor <;> dsimp only <;> split
  · exact hj.1
  · exact hi.1
  · exact hj.2
  · exact hi.2

theorem of_hasWidth {w : ℕ} (hi : i.HasWidth w) (hw : 0 < w) : i.Keyed := by
  have hkey : ∀ b : KeyBound, b.HasWidth w → b.key? ≠ some [] := fun b hb hnil => by
    have hlength := hb [] hnil
    simp at hlength
    omega
  exact ⟨hkey _ hi.lower, hkey _ hi.upper⟩

end KeyInterval.Keyed

namespace KeyRange

variable {w : ℕ} {intervals : List KeyInterval} {i j : KeyInterval} {r s t : KeyRange}

theorem insertInterval_of_below (h : ∀ j ∈ intervals, j.lower.compare i.lower ≠ .gt) :
    insertInterval intervals i = intervals ++ [i] := by
  induction intervals with
  | nil => rfl
  | cons j rest ih =>
    obtain ⟨hj, hrest⟩ := List.forall_mem_cons.1 h
    rw [insertInterval_cons, if_pos (bne_iff_ne.2 hj), ih hrest]
    rfl

/-- An interval above all others meets none of them, and goes behind them. -/
theorem absorb_of_separated (h : Separated w (intervals ++ [i])) : absorb intervals i = intervals ++ [i] := by
  have hi := h.hasWidth i (by simp)
  have hlt := h.lower_lt i (by simp)
  have hbelow : ∀ j ∈ intervals, j.upper.place w < i.lower.place w := fun j hj =>
    (List.pairwise_append.1 h.apart).2.2 j hj i (List.mem_singleton_self i)
  have hmeets : ∀ j ∈ intervals, ¬j.meets i = true := by
    intro j hj
    rw [KeyInterval.meets_iff (h.hasWidth j (List.mem_append_left _ hj)) hi, not_and_or, not_le, not_le]
    exact .inr (hbelow j hj)
  rw [absorb]
  split
  · next j hfind => exact absurd (List.find?_some hfind) (hmeets j (List.mem_of_find?_eq_some hfind))
  · refine insertInterval_of_below fun j hj => ?_
    have hj' := List.mem_append_left [i] hj
    refine (KeyBound.compares_place (h.hasWidth j hj').lower hi.lower).ne_gt.2 ?_
    exact ((h.lower_lt j hj').trans (hbelow j hj)).le

theorem foldl_absorb_of_separated {more : List KeyInterval} (h : Separated w (intervals ++ more)) :
    more.foldl absorb intervals = intervals ++ more := by
  induction more generalizing intervals with
  | nil => simp
  | cons i more ih =>
    rw [List.append_cons] at h ⊢
    have hfirst : Separated w (intervals ++ [i]) := h.sublist (List.sublist_append_left _ _)
    rw [List.foldl_cons, absorb_of_separated hfirst]
    exact ih h

theorem ofIntervals_eq_of_obtained (h : r.Obtained) : KeyRange.ofIntervals r.width r.intervals = r := by
  have hseparated := h.separated
  have hfilter : r.intervals.filter (!·.isEmpty) = r.intervals := by
    refine List.filter_eq_self.2 fun i hi => ?_
    rw [Bool.not_eq_true', ← Bool.not_eq_true, KeyInterval.isEmpty_iff (hseparated.hasWidth i hi), not_le]
    exact hseparated.lower_lt i hi
  rw [KeyRange.ofIntervals, hfilter, foldl_absorb_of_separated hseparated, List.nil_append]

theorem keyed_ofIntervals (h : ∀ i ∈ intervals, i.Keyed) : ∀ i ∈ (ofIntervals w intervals).intervals, i.Keyed :=
  forall_foldl_absorb (fun _ _ hi hj => hi.hull hj) nofun fun i hi => h i (List.mem_of_mem_filter hi)

/-- A range of the operations that fits into its stored form, where a width has 64 bits and no key is empty. -/
structure Storable (r : KeyRange) : Prop where
  obtained : r.Obtained
  width_le : r.width ≤ 0xffffffffffffffff
  keyed : ∀ i ∈ r.intervals, i.Keyed

/-- A range of at least one column has no bound of an empty key. -/
theorem Obtained.storable (h : r.Obtained) (hpos : 0 < r.width) (hwidth : r.width ≤ 0xffffffffffffffff) :
    r.Storable where
  obtained := h
  width_le := hwidth
  keyed i hi := .of_hasWidth (h.separated.hasWidth i hi) hpos

namespace Storable

theorem comparing (op : Comparison) {key : Key} (h : key ≠ []) (hwidth : key.length ≤ 0xffffffffffffffff) :
    (comparing op key).Storable :=
  (obtained_comparing op h).storable (List.length_pos_iff.2 h) hwidth

theorem interSameWidth (hr : r.Storable) (hs : s.Storable) (h : r.width = s.width) :
    (r.interSameWidth s).Storable where
  obtained := hr.obtained.inter hs.obtained (inter_eq_ok.2 ⟨h, rfl⟩)
  width_le := hr.width_le
  keyed := keyed_ofIntervals (forall_inters (fun _ _ hi hj => hi.inter hj) hr.keyed hs.keyed)

theorem unionSameWidth (hr : r.Storable) (hs : s.Storable) (h : r.width = s.width) :
    (r.unionSameWidth s).Storable where
  obtained := hr.obtained.union hs.obtained (union_eq_ok.2 ⟨h, rfl⟩)
  width_le := hr.width_le
  keyed := forall_foldl_absorb (fun _ _ hi hj => hi.hull hj) hs.keyed hr.keyed

end Storable

end KeyRange

end JoinPlanner
