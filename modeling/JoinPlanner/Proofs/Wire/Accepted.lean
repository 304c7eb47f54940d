import JoinPlanner.Proofs.Range.Lattice
import JoinPlanner.Proofs.Wire.RoundTrip

/-!
# Ranges that are accepted

A range may be written with its intervals in any order, empty ones and overlapping ones among them. It is accepted
if every bound fits its width, and else refused for the first bound that does not; what is accepted holds the keys
of the intervals that were written, and comes back unchanged when it is written and read again
(`KeyRange.read_raw`). Keys and bounds of width 0 have places like all others, so that the width makes no case but
for the empty key: the operations give bounds of it, and reading refuses them.
-/

namespace JoinPlanner

open Wire

variable {w : ℕ} {intervals : List KeyInterval} {key : Key}

/-- An interval holds a key of its width if it spans the place of the key. -/
theorem KeyInterval.contains_iff_mem_span {i : KeyInterval} (hi : i.HasWidth w) (hk : key.length = w) :
    i.contains key = true ↔ key.place w ∈ i.span w := by
  have hlower := KeyBound.compares_key_of_length hi.lower hk
  have hupper := KeyBound.compares_key_of_length hi.upper hk
  simp only [contains, Bool.and_eq_true, beq_iff_eq]
  rw [hlower.eq_lt, hupper.eq_gt, span, Set.mem_Ico, le_iff_lt_or_eq, or_iff_left KeyBound.place_ne]

namespace KeyRange

variable {raw r s : KeyRange}

theorem exists_contains_iff (hl : ∀ i ∈ intervals, i.HasWidth w) (hk : key.length = w) :
    (∃ i ∈ intervals, i.contains key = true) ↔ key.place w ∈ spanOf w intervals :=
  exists_congr fun i => and_congr_right fun hi => KeyInterval.contains_iff_mem_span (hl i hi) hk

/-- No key is lost, and none added, when the intervals are put in order. -/
theorem contains_ofIntervals_of_length (hl : ∀ i ∈ intervals, i.HasWidth w) (hk : key.length = w) :
    (ofIntervals w intervals).contains key = true ↔ ∃ i ∈ intervals, i.contains key = true := by
  have hnormal := (Separated.ofIntervals hl).hasWidth
  rw [contains, List.any_eq_true, exists_contains_iff hnormal hk, spanOf_ofIntervals hl, ← exists_contains_iff hl hk]

theorem keyed_of_fits (h : ∀ b ∈ boundsOf intervals, b.Fits w) : ∀ i ∈ intervals, i.Keyed := fun i hi =>
  have hi := forall_mem_boundsOf.1 h i hi
  ⟨hi.1.key?_ne, hi.2.key?_ne⟩

theorem fits_of_keyed (hwidth : ∀ i ∈ intervals, i.HasWidth w) (h : ∀ i ∈ intervals, i.Keyed) :
    ∀ b ∈ boundsOf intervals, b.Fits w :=
  forall_mem_boundsOf.2 fun i hi => ⟨(hwidth i hi).lower.fits (h i hi).1, (hwidth i hi).upper.fits (h i hi).2⟩

theorem run_read_write (hwidth : raw.width ≤ 0xffffffffffffffff) (tolerance : Tolerance) :
    KeyRange.read raw.write tolerance = (ofCheckedIntervals raw.width raw.intervals).mapError .range := by
  rw [read_write_eq raw hwidth]
  rfl

theorem read_write_eq_ok_iff (hwidth : raw.width ≤ 0xffffffffffffffff) {tolerance : Tolerance} :
    KeyRange.read raw.write tolerance = .ok r ↔
      (∀ b ∈ boundsOf raw.intervals, b.Fits raw.width) ∧ ofIntervals raw.width raw.intervals = r := by
  rw [read_write_eq raw hwidth, Decode.run_lift_eq_ok, ofCheckedIntervals_eq_ok_iff]

/-- What is written of a range of the operations is the range again if no bound is of a key without values, and only
then. -/
theorem Obtained.read_write_iff (h : s.Obtained) (hwidth : s.width ≤ 0xffffffffffffffff) {tolerance : Tolerance} :
    KeyRange.read s.write tolerance = .ok s ↔ ∀ i ∈ s.intervals, i.Keyed := by
  rw [read_write_eq_ok_iff hwidth, and_iff_left (ofIntervals_eq_of_obtained h)]
  exact ⟨keyed_of_fits, fits_of_keyed h.separated.hasWidth⟩

/-- Exactly the ranges all of whose bounds fit are read. Of the others the first bound that does not fit is
reported. What is read holds the keys of the intervals as they were written; and it is the same when it is written
and read again, as is every range of the operations without a bound of the empty key, and no other. -/
theorem read_raw (hwidth : raw.width ≤ 0xffffffffffffffff) (tolerance : Tolerance) :
    ((∃ r, KeyRange.read raw.write tolerance = .ok r) ↔
      ∀ b ∈ boundsOf raw.intervals, ∀ key, b.key? = some key → 1 ≤ key.length ∧ key.length = raw.width) ∧
    (∀ before b after key, boundsOf raw.intervals = before ++ b :: after →
      (∀ b' ∈ before, ∀ key, b'.key? = some key → 1 ≤ key.length ∧ key.length = raw.width) →
      b.key? = some key → ¬(1 ≤ key.length ∧ key.length = raw.width) →
      KeyRange.read raw.write tolerance =
        .error (.range (if key = [] then .emptyKey else .widthMismatch raw.width key.length))) ∧
    (∀ r, KeyRange.read raw.write tolerance = .ok r → r.width = raw.width ∧
      (∀ key : Key, key.length = raw.width →
        (r.contains key = true ↔ ∃ i ∈ raw.intervals, i.contains key = true)) ∧
      ∀ tolerance', KeyRange.read r.write tolerance' = .ok r) ∧
    ∀ s : KeyRange, s.Obtained → s.width ≤ 0xffffffffffffffff →
      ∀ tolerance', KeyRange.read s.write tolerance' = .ok s ↔ ∀ i ∈ s.intervals, i.Keyed := by
  refine ⟨?_, fun before b after key hbounds hbefore hkey hfault => ?_, fun r hr => ?_,
    fun s hs hwidth tolerance' => hs.read_write_iff hwidth⟩
  · simp only [read_write_eq_ok_iff hwidth, exists_and_left, exists_eq', and_true]
    rfl
  · have hb : ¬b.Fits raw.width := by rwa [KeyBound.fits_iff hkey]
    have hcheck : (before ++ b :: after).forM (·.checkWidth raw.width) = .error _ :=
      forM_eq_error (fun b' hb' => KeyBound.checkWidth_of_fits (hbefore b' hb'))
        (KeyBound.checkWidth_of_not_fits hkey hb)
    rw [run_read_write hwidth, ofCheckedIntervals_eq, hbounds, hcheck]
    rfl
  · obtain ⟨hfits, rfl⟩ := (read_write_eq_ok_iff hwidth).1 hr
    have hobtained : (ofIntervals raw.width raw.intervals).Obtained := .ofIntervals (hasWidth_of_fits hfits)
    exact ⟨rfl, fun key hk => contains_ofIntervals_of_length (hasWidth_of_fits hfits) hk,
      fun tolerance' => (hobtained.read_write_iff hwidth).2 (keyed_ofIntervals (keyed_of_fits hfits))⟩

/-- Four intervals out of order, one of them empty and two that overlap, are a range of two; a bound of two values
is refused, and not the empty one behind it. -/
theorem read_raw_outOfOrder :
    (∃ r, KeyRange.read (write ⟨1, [⟨.after [.int 10], .last⟩, ⟨.before [.int 3], .after [.int 3]⟩,
        ⟨.after [.int 1], .before [.int 5]⟩, ⟨.after [.int 8], .before [.int 7]⟩]⟩) .strict = .ok r ∧
      r.contains [.int 3] = true ∧ r.contains [.int 7] = false ∧ KeyRange.read r.write .strict = .ok r) ∧
    KeyRange.read (write ⟨1, [⟨.first, .before [.int 1]⟩, ⟨.after [.int 1, .int 2], .before []⟩]⟩) .strict =
      .error (.range (.widthMismatch 1 2)) := by
  obtain ⟨haccepted, -, hread, -⟩ := @read_raw ⟨1, [⟨.after [.int 10], .last⟩, ⟨.before [.int 3], .after [.int 3]⟩,
    ⟨.after [.int 1], .before [.int 5]⟩, ⟨.after [.int 8], .before [.int 7]⟩]⟩ (by decide) .strict
  obtain ⟨-, hrefused, -, -⟩ :=
    @read_raw ⟨1, [⟨.first, .before [.int 1]⟩, ⟨.after [.int 1, .int 2], .before []⟩]⟩ (by decide) .strict
  refine ⟨?_, hrefused [.first, .before [.int 1]] (.after [.int 1, .int 2]) [.before []] [.int 1, .int 2] rfl ?_ rfl
    (by decide)⟩
  · obtain ⟨r, hr⟩ := haccepted.2 (by simp [boundsOf, KeyBound.key?])
    obtain ⟨-, hcontains, hagain⟩ := hread r hr
    refine ⟨r, hr, (hcontains [.int 3] rfl).2 ⟨⟨.before [.int 3], .after [.int 3]⟩, by simp, by decide +kernel⟩, ?_,
      hagain .strict⟩
    rw [← Bool.not_eq_true, hcontains [.int 7] rfl]
    simp only [List.mem_cons, List.not_mem_nil, or_false, exists_eq_or_imp, exists_eq_left]
    decide +kernel
  · simp [KeyBound.key?]

/-- The range of no columns that ranges from before the empty key to after it. -/
def emptyKeyOnly : KeyRange := ⟨0, [⟨.before [], .after []⟩]⟩

theorem obtained_emptyKeyOnly : emptyKeyOnly.Obtained := by
  have hmade : KeyRange.ofIntervals 0 emptyKeyOnly.intervals = emptyKeyOnly := by
    rw [KeyRange.ofIntervals, emptyKeyOnly, List.filter_cons_of_pos (by decide +kernel), List.filter_nil,
      List.foldl_cons, List.foldl_nil, absorb]
    rfl
  have hkey : ∀ key ∈ some ([] : Key), key.length = 0 := fun key h => by cases h; rfl
  exact hmade ▸ .ofIntervals (List.forall_mem_singleton.2 ⟨hkey, hkey⟩)

/-- It is a range of the operations, but what is written of it is refused. -/
theorem read_write_emptyKeyOnly : emptyKeyOnly.Obtained ∧ ∀ tolerance,
    KeyRange.read emptyKeyOnly.write tolerance = .error (.range .emptyKey) := by
  refine ⟨obtained_emptyKeyOnly, fun tolerance => ?_⟩
  rw [run_read_write (by decide)]
  rfl

end KeyRange

end JoinPlanner
