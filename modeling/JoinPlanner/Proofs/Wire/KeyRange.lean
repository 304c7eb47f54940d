import JoinPlanner.Proofs.Range.Bound
import JoinPlanner.Wire.Read

/-!
# Reading key ranges

A range is made of the intervals that are read if each of their bounds fits its width, and of no others
(`KeyRange.ofCheckedIntervals_eq_ok_iff`): bound by bound is checked before the range is made.
-/

namespace JoinPlanner

namespace Wire.Decode

variable {α β : Type} {tolerance : Tolerance}

theorem run_bind_eq_ok {x : Decode α} {f : α → Decode β} {b : β} :
    (x >>= f) tolerance = .ok b ↔ ∃ a, x tolerance = .ok a ∧ f a tolerance = .ok b := by
  show (x tolerance >>= fun a => f a tolerance) = .ok b ↔ _
  cases x tolerance <;> simp [bind, Except.bind]

theorem run_lift_eq_ok {x : Except RangeError α} {a : α} :
    (liftM x : Decode α) tolerance = .ok a ↔ x = .ok a := by
  show x.mapError DecodeError.range = .ok a ↔ _
  cases x <;> simp [Except.mapError]

end Wire.Decode

variable {w : ℕ} {intervals : List KeyInterval} {r : KeyRange}

namespace KeyBound

variable {b : KeyBound} {key : Key}

/-- The bound may stand in a range of `w` columns that is read: its key, if it has one, has `w` values, and at
least one. -/
def Fits (w : ℕ) (b : KeyBound) : Prop := ∀ key ∈ b.key?, 1 ≤ key.length ∧ key.length = w

theorem fits_of_key?_eq_none (h : b.key? = none) : b.Fits w := by simp [Fits, h]

theorem fits_iff (h : b.key? = some key) : b.Fits w ↔ 1 ≤ key.length ∧ key.length = w := by simp [Fits, h]

theorem Fits.hasWidth (h : b.Fits w) : b.HasWidth w := fun key hkey => (h key hkey).2

theorem checkWidth_of_fits (h : b.Fits w) : b.checkWidth w = .ok () := by
  unfold checkWidth
  split
  · rfl
  · next key hkey =>
    obtain ⟨hpos, hlength⟩ := (fits_iff hkey).1 h
    rw [if_neg (by simpa using List.ne_nil_of_length_pos hpos), if_pos hlength]

theorem checkWidth_of_not_fits (hkey : b.key? = some key) (h : ¬b.Fits w) :
    b.checkWidth w = .error (if key = [] then .emptyKey else .widthMismatch w key.length) := by
  rw [fits_iff hkey] at h
  unfold checkWidth
  rw [hkey]
  dsimp only
  by_cases hnil : key = []
  · rw [if_pos (List.isEmpty_iff.2 hnil), if_pos hnil]
  · have hpos := List.length_pos_iff.2 hnil
    rw [if_neg (by simpa using hnil), if_neg (by omega), if_neg hnil]

theorem checkWidth_eq_ok_iff : b.checkWidth w = .ok () ↔ b.Fits w := by
  refine ⟨fun h => ?_, checkWidth_of_fits⟩
  by_contra hfits
  cases hkey : b.key? with
  | none => exact hfits (fits_of_key?_eq_none hkey)
  | some key =>
    rw [checkWidth_of_not_fits hkey hfits] at h
    cases h

end KeyBound

namespace KeyRange

/-- The bounds of intervals, in the order in which they are checked. -/
def boundsOf (intervals : List KeyInterval) : List KeyBound := intervals.flatMap fun i => [i.lower, i.upper]

theorem forall_mem_boundsOf {p : KeyBound → Prop} :
    (∀ b ∈ boundsOf intervals, p b) ↔ ∀ i ∈ intervals, p i.lower ∧ p i.upper := by
  rw [boundsOf, List.forall_mem_flatMap]
  simp

theorem hasWidth_of_fits (h : ∀ b ∈ boundsOf intervals, b.Fits w) : ∀ i ∈ intervals, i.HasWidth w := fun i hi =>
  have hi := forall_mem_boundsOf.1 h i hi
  ⟨hi.1.hasWidth, hi.2.hasWidth⟩

theorem ofCheckedIntervals_eq (w : ℕ) (intervals : List KeyInterval) : ofCheckedIntervals w intervals =
    (boundsOf intervals).forM (·.checkWidth w) >>= fun _ => .ok (ofIntervals w intervals) := by
  have hcheck : (intervals.forM fun i => do
      i.lower.checkWidth w
      i.upper.checkWidth w : Except RangeError Unit) = (boundsOf intervals).forM (·.checkWidth w) := by
    induction intervals with
    | nil => rfl
    | cons i rest ih =>
      show (i.lower.checkWidth w >>= fun _ => i.upper.checkWidth w) >>= (fun _ => rest.forM _) =
        i.lower.checkWidth w >>= fun _ => i.upper.checkWidth w >>= fun _ => (boundsOf rest).forM _
      rw [bind_assoc, ih]
  rw [ofCheckedIntervals, hcheck]
  rfl

theorem ofCheckedIntervals_eq_ok_iff :
    ofCheckedIntervals w intervals = .ok r ↔ (∀ b ∈ boundsOf intervals, b.Fits w) ∧ ofIntervals w intervals = r := by
  rw [ofCheckedIntervals_eq, bind_eq_ok]
  constructor
  · rintro ⟨_, hcheck, hr⟩
    exact ⟨fun b hb => KeyBound.checkWidth_eq_ok_iff.1 (forM_eq_ok hcheck b hb), Except.ok.inj hr⟩
  · rintro ⟨hfits, rfl⟩
    exact ⟨(), forM_ok fun b hb => KeyBound.checkWidth_of_fits (hfits b hb), rfl⟩

theorem exists_ofIntervals_of_read {d : Wire.Data} {tolerance : Wire.Tolerance}
    (h : KeyRange.read d tolerance = .ok r) :
    ∃ w intervals, (∀ b ∈ boundsOf intervals, b.Fits w) ∧ ofIntervals w intervals = r := by
  unfold KeyRange.read at h
  obtain ⟨fields, -, h⟩ := Wire.Decode.run_bind_eq_ok.1 h
  obtain ⟨pairs, -, h⟩ := Wire.Decode.run_bind_eq_ok.1 h
  obtain ⟨width, -, h⟩ := Wire.Decode.run_bind_eq_ok.1 h
  obtain ⟨intervals, -, h⟩ := Wire.Decode.run_bind_eq_ok.1 h
  obtain ⟨w, -, h⟩ := Wire.Decode.run_bind_eq_ok.1 h
  exact ⟨w, intervals, ofCheckedIntervals_eq_ok_iff.1 (Wire.Decode.run_lift_eq_ok.1 h)⟩

end KeyRange

end JoinPlanner
