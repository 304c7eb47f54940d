import JoinPlanner.Proofs.Range.Bound
import JoinPlanner.Range.Basic

/-!
# Membership in key ranges

The operations of ranges compute the sets that they name: `KeyRange.contains_interSameWidth`,
`KeyRange.contains_unionSameWidth` and `KeyRange.contains_ofIntervals` for ranges whose bounds have the
width of the range (`KeyRange.WellFormed`, kept by every operation). The range of a comparison with a
constant holds the values of which the comparison is true (`KeyRange.contains_comparing`).
-/

namespace JoinPlanner.KeyRange

/-- The bounds of the range are those of keys of its width. -/
structure WellFormed (r : KeyRange) : Prop where
  width_pos : 0 < r.width
  hasWidth : ∀ i ∈ r.intervals, i.HasWidth r.width

variable {w : ℕ} {intervals : List KeyInterval} {i : KeyInterval} {key : Key} {r s : KeyRange}

theorem mem_insertInterval {j : KeyInterval} : j ∈ insertInterval intervals i ↔ j = i ∨ j ∈ intervals := by
  have h : j ∈ intervals.takeWhile (fun j => j.lower.compare i.lower != .gt) ++
      intervals.dropWhile (fun j => j.lower.compare i.lower != .gt) ↔ j ∈ intervals := by
    rw [List.takeWhile_append_dropWhile]
  rw [List.mem_append] at h
  simp only [insertInterval, List.mem_append, List.mem_cons]
  tauto

theorem perm_cons_eraseP {α : Type} {p : α → Bool} {l : List α} {a : α} (h : l.find? p = some a) :
    l.Perm (a :: l.eraseP p) := by
  obtain ⟨ha, before, after, rfl, hbefore⟩ := List.find?_eq_some_iff_append.1 h
  have hnot : ∀ b ∈ before, ¬p b = true := by simpa using hbefore
  rw [List.eraseP_append_right _ hnot, List.eraseP_cons_of_pos ha]
  exact List.perm_middle

theorem WellFormed.contains_take (hr : r.WellFormed) (hk : r.width ≤ key.length) :
    r.contains (key.take r.width) = r.contains key := by
  rw [contains, contains, Bool.eq_iff_iff, List.any_eq_true, List.any_eq_true]
  exact exists_congr fun i => and_congr_right fun hi => by
    rw [KeyInterval.contains_take hr.width_pos (hr.hasWidth i hi) hk]

section
variable {p : KeyInterval → Prop}

theorem forall_absorb (hhull : ∀ i j, p i → p j → p (i.hull j)) (hl : ∀ j ∈ intervals, p j) (hi : p i) :
    ∀ j ∈ absorb intervals i, p j := by
  fun_induction absorb intervals i with
  | case1 intervals i j hfind ih =>
    have hj := hl j (List.mem_of_find?_eq_some hfind)
    exact ih (fun k hk => hl k (List.mem_of_mem_eraseP hk)) (hhull i j hi hj)
  | case2 intervals i hfind =>
    intro j hj
    rcases mem_insertInterval.1 hj with rfl | hj
    · exact hi
    · exact hl j hj

theorem forall_foldl_absorb {more : List KeyInterval} (hhull : ∀ i j, p i → p j → p (i.hull j))
    (hl : ∀ j ∈ intervals, p j) (hm : ∀ j ∈ more, p j) : ∀ j ∈ more.foldl absorb intervals, p j := by
  induction more generalizing intervals with
  | nil => exact hl
  | cons i more ih =>
    obtain ⟨hi, hm⟩ := List.forall_mem_cons.1 hm
    exact ih (forall_absorb hhull hl hi) hm

theorem forall_inters (hinter : ∀ i j, p i → p j → p (i.inter j)) (hr : ∀ i ∈ r.intervals, p i)
    (hs : ∀ j ∈ s.intervals, p j) : ∀ k ∈ r.intervals.flatMap fun i => s.intervals.map i.inter, p k := by
  intro k hk
  simp only [List.mem_flatMap, List.mem_map] at hk
  obtain ⟨i, hi, j, hj, rfl⟩ := hk
  exact hinter i j (hr i hi) (hs j hj)

end

theorem hasWidth_absorb (hl : ∀ j ∈ intervals, j.HasWidth w) (hi : i.HasWidth w) :
    ∀ j ∈ absorb intervals i, j.HasWidth w :=
  forall_absorb (fun _ _ hi hj => hi.hull hj) hl hi

theorem hasWidth_foldl_absorb {more : List KeyInterval} (hl : ∀ j ∈ intervals, j.HasWidth w)
    (hm : ∀ j ∈ more, j.HasWidth w) : ∀ j ∈ more.foldl absorb intervals, j.HasWidth w :=
  forall_foldl_absorb (fun _ _ hi hj => hi.hull hj) hl hm

theorem hasWidth_inters (hr : ∀ i ∈ r.intervals, i.HasWidth w) (hs : ∀ j ∈ s.intervals, j.HasWidth w) :
    ∀ k ∈ r.intervals.flatMap fun i => s.intervals.map i.inter, k.HasWidth w :=
  forall_inters (fun _ _ hi hj => hi.inter hj) hr hs

theorem any_absorb (hw : 0 < w) (hl : ∀ j ∈ intervals, j.HasWidth w) (hi : i.HasWidth w)
    (hk : w ≤ key.length) : (absorb intervals i).any (·.contains key) =
      (i.contains key || intervals.any (·.contains key)) := by
  fun_induction absorb intervals i with
  | case1 intervals i j hfind ih =>
    have hj := hl j (List.mem_of_find?_eq_some hfind)
    have hmeets := List.find?_some hfind
    rw [ih (fun k hk => hl k (List.mem_of_mem_eraseP hk)) (hi.hull hj),
      KeyInterval.contains_hull hw hi hj hk hmeets, (perm_cons_eraseP hfind).any_eq, List.any_cons,
      Bool.or_assoc]
  | case2 intervals i hfind =>
    rw [Bool.eq_iff_iff]
    simp [mem_insertInterval]

theorem any_foldl_absorb {more : List KeyInterval} (hw : 0 < w) (hl : ∀ j ∈ intervals, j.HasWidth w)
    (hm : ∀ j ∈ more, j.HasWidth w) (hk : w ≤ key.length) : (more.foldl absorb intervals).any (·.contains key) =
      (more.any (·.contains key) || intervals.any (·.contains key)) := by
  induction more generalizing intervals with
  | nil => simp
  | cons i more ih =>
    obtain ⟨hi, hm⟩ := List.forall_mem_cons.1 hm
    rw [List.foldl_cons, ih (hasWidth_absorb hl hi) hm, any_absorb hw hl hi hk, List.any_cons]
    simp only [Bool.or_assoc, Bool.or_left_comm]

theorem WellFormed.ofIntervals (hw : 0 < w) (hl : ∀ j ∈ intervals, j.HasWidth w) :
    (ofIntervals w intervals).WellFormed :=
  ⟨hw, hasWidth_foldl_absorb (by simp) fun j hj => hl j (List.mem_of_mem_filter hj)⟩

theorem contains_ofIntervals (hw : 0 < w) (hl : ∀ j ∈ intervals, j.HasWidth w) (hk : w ≤ key.length) :
    (ofIntervals w intervals).contains key = intervals.any (·.contains key) := by
  have hm : ∀ j ∈ intervals.filter (!·.isEmpty), j.HasWidth w := fun j hj => hl j (List.mem_of_mem_filter hj)
  have hempty : ∀ j ∈ intervals, (!j.isEmpty && j.contains key) = j.contains key := by
    intro j hj
    cases hemp : j.isEmpty with
    | false => simp
    | true => simp [KeyInterval.not_contains_of_isEmpty hw (hl j hj) hk hemp]
  rw [contains, KeyRange.ofIntervals, any_foldl_absorb hw (by simp) hm hk, List.any_filter]
  rw [List.any_nil, Bool.or_false, Bool.eq_iff_iff, List.any_eq_true, List.any_eq_true]
  exact exists_congr fun j => and_congr_right fun hj => by rw [hempty j hj]

theorem WellFormed.interSameWidth (hr : r.WellFormed) (hs : s.WellFormed) (h : r.width = s.width) :
    (r.interSameWidth s).WellFormed :=
  .ofIntervals hr.width_pos (hasWidth_inters hr.hasWidth (h ▸ hs.hasWidth))

theorem WellFormed.unionSameWidth (hr : r.WellFormed) (hs : s.WellFormed) (h : r.width = s.width) :
    (r.unionSameWidth s).WellFormed :=
  ⟨hr.width_pos, hasWidth_foldl_absorb (h ▸ hs.hasWidth) hr.hasWidth⟩

theorem contains_interSameWidth (hr : r.WellFormed) (hs : s.WellFormed) (h : r.width = s.width)
    (hk : r.width ≤ key.length) : (r.interSameWidth s).contains key = (r.contains key && s.contains key) := by
  have hinter : ∀ i ∈ r.intervals, ∀ j ∈ s.intervals,
      ((i.inter j).contains key = true ↔ i.contains key = true ∧ j.contains key = true) := by
    intro i hi j hj
    rw [KeyInterval.contains_inter hr.width_pos (hr.hasWidth i hi) (h ▸ hs.hasWidth j hj) hk, Bool.and_eq_true]
  rw [KeyRange.interSameWidth, contains_ofIntervals hr.width_pos
    (hasWidth_inters hr.hasWidth (h ▸ hs.hasWidth)) hk, Bool.eq_iff_iff]
  simp only [contains, Bool.and_eq_true, List.any_eq_true, List.mem_flatMap, List.mem_map]
  constructor
  · rintro ⟨-, ⟨i, hi, j, hj, rfl⟩, hc⟩
    obtain ⟨hci, hcj⟩ := (hinter i hi j hj).1 hc
    exact ⟨⟨i, hi, hci⟩, ⟨j, hj, hcj⟩⟩
  · rintro ⟨⟨i, hi, hci⟩, ⟨j, hj, hcj⟩⟩
    exact ⟨i.inter j, ⟨i, hi, j, hj, rfl⟩, (hinter i hi j hj).2 ⟨hci, hcj⟩⟩

theorem contains_unionSameWidth (hr : r.WellFormed) (hs : s.WellFormed) (h : r.width = s.width)
    (hk : r.width ≤ key.length) : (r.unionSameWidth s).contains key = (r.contains key || s.contains key) :=
  any_foldl_absorb hr.width_pos (h ▸ hs.hasWidth) hr.hasWidth hk

theorem inter_eq_ok {t : KeyRange} : r.inter s = .ok t ↔ r.width = s.width ∧ r.interSameWidth s = t := by
  unfold inter
  split <;> simp [*]

theorem union_eq_ok {t : KeyRange} : r.union s = .ok t ↔ r.width = s.width ∧ r.unionSameWidth s = t := by
  unfold union
  split <;> simp [*]

/-- The operations compute the sets that they name. A key may be longer than those of the ranges. -/
theorem contains_operations (hr : r.WellFormed) (hs : s.WellFormed) (h : r.width = s.width)
    (hk : r.width ≤ key.length) :
    (∃ t, r.inter s = .ok t ∧ (t.contains key = true ↔ r.contains key = true ∧ s.contains key = true)) ∧
      (∃ t, r.union s = .ok t ∧ (t.contains key = true ↔ r.contains key = true ∨ s.contains key = true)) ∧
      ∀ intervals : List KeyInterval, (∀ i ∈ intervals, i.HasWidth r.width) →
        ((ofIntervals r.width intervals).contains key = true ↔ ∃ i ∈ intervals, i.contains key = true) := by
  refine ⟨⟨_, inter_eq_ok.2 ⟨h, rfl⟩, ?_⟩, ⟨_, union_eq_ok.2 ⟨h, rfl⟩, ?_⟩, fun intervals hl => ?_⟩
  · rw [contains_interSameWidth hr hs h hk, Bool.and_eq_true]
  · rw [contains_unionSameWidth hr hs h hk, Bool.or_eq_true]
  · rw [contains_ofIntervals hr.width_pos hl hk, List.any_eq_true]

theorem contains_of_isEmpty (h : r.isEmpty = true) : r.contains key = false := by
  rw [contains, List.isEmpty_iff.1 h, List.any_nil]

theorem contains_of_isFull (h : r.isFull = true) : r.contains key = true := by
  unfold isFull at h
  split at h
  · next heq => rw [contains, heq]; rfl
  · cases h

/-- The bounds of a comparison are those of its key. -/
theorem keys_comparisonIntervals (op : Comparison) (key : Key) : ∀ i ∈ comparisonIntervals op key,
    (∀ k ∈ i.lower.key?, k = key) ∧ ∀ k ∈ i.upper.key?, k = key := by
  intro i hi
  constructor <;> cases op <;> simp only [comparisonIntervals] at hi <;> (try split at hi) <;>
    simp at hi <;> rcases hi with rfl | rfl <;> simp [KeyBound.key?, eq_comm]

theorem hasWidth_comparisonIntervals (op : Comparison) (key : Key) :
    ∀ i ∈ comparisonIntervals op key, i.HasWidth key.length := fun i hi =>
  have hkeys := keys_comparisonIntervals op key i hi
  ⟨fun k hk => congrArg List.length (hkeys.1 k hk), fun k hk => congrArg List.length (hkeys.2 k hk)⟩

theorem WellFormed.comparing (op : Comparison) (h : key ≠ []) : (comparing op key).WellFormed :=
  .ofIntervals (List.length_pos_iff.2 h) (hasWidth_comparisonIntervals op key)

/-- A key of three values in ranges of two columns: it begins with NULL, and only the first range reaches
below the keys that do not. -/
theorem contains_operations_composite :
    (∃ t, (comparing .gt [.null, .int 3]).inter (comparing .le [.int 5, .null]) = .ok t ∧
      t.contains [.null, .int 4, .text "a"] = false) ∧
    (∃ t, (comparing .gt [.null, .int 3]).union (comparing .le [.int 5, .null]) = .ok t ∧
      t.contains [.null, .int 4, .text "a"] = true) ∧
    (ofIntervals 2 [⟨.last, .afterLast⟩, ⟨.beforeFirst, .first⟩]).contains [.null, .int 4, .text "a"] = true := by
  have hr : (comparing .gt [.null, .int 3]).WellFormed := .comparing _ (by simp)
  have hs : (comparing .le [.int 5, .null]).WellFormed := .comparing _ (by simp)
  obtain ⟨⟨t, ht, hinter⟩, ⟨u, hu, hunion⟩, hlist⟩ :=
    contains_operations hr hs rfl (show 2 ≤ ([.null, .int 4, .text "a"] : Key).length by decide)
  have hbelow : (comparing .gt [.null, .int 3]).contains [.null, .int 4, .text "a"] = true := by decide +kernel
  have habove : (comparing .le [.int 5, .null]).contains [.null, .int 4, .text "a"] = false := by decide +kernel
  refine ⟨⟨t, ht, ?_⟩, ⟨u, hu, hunion.2 (.inl hbelow)⟩, (hlist _ ?_).2 ⟨⟨.beforeFirst, .first⟩, by simp, by decide⟩⟩
  · rw [← Bool.not_eq_true, hinter, habove]
    simp
  · intro i hi
    simp only [List.mem_cons, List.not_mem_nil, or_false] at hi
    rcases hi with rfl | rfl <;> exact ⟨nofun, nofun⟩

/-- The range of a comparison with a constant holds the values that stand so to it in the total order,
and NULL only if the comparison sees it. -/
theorem contains_comparing {op : Comparison} {x v : Value} (h : v.isNull = true → op.seesNull = true) :
    (comparing op [v]).contains [x] = (op.holds (Ord.compare x v) && (op.seesNull || !x.isNull)) := by
  have hkey : Key.compare [v] [x] = (Ord.compare x v).swap := by
    rw [Value.compare_swap]
    exact Ordering.then_eq
  rw [KeyRange.comparing, contains_ofIntervals (by simp) (hasWidth_comparisonIntervals op [v]) (by simp)]
  simp only [comparisonIntervals]
  -- the order of the two is known if one of them is NULL
  cases hx : x.isNull with
  | true =>
    have ho := Value.compare_of_isNull (b := v) hx
    cases hv : v.isNull <;> rw [hv] at ho <;> cases op <;> simp [KeyInterval.contains, KeyBound.compareKey,
      Comparison.holds, Comparison.seesNull, Key.beginsWithNull, hkey, hx, hv, ho] at h ⊢
  | false =>
    cases hv : v.isNull with
    | true =>
      have ho := Value.compare_of_isNull_right (a := x) hv
      cases op <;> simp [KeyInterval.contains, KeyBound.compareKey, Comparison.holds, Comparison.seesNull,
        Key.beginsWithNull, hkey, hx, hv, ho] at h ⊢
    | false =>
      cases ho : Ord.compare x v <;> cases op <;> simp [KeyInterval.contains, KeyBound.compareKey,
        Comparison.holds, Comparison.seesNull, Key.beginsWithNull, hkey, hx, hv, ho]

/-- Of NULL, and of values of the constant's class, the range decides the comparison as SQL does, but
that it is false, and not unknown, of a NULL that the comparison does not see. -/
theorem compareWith_eq {op : Comparison} {x v : Value} (h : v.isNull = true → op.seesNull = true)
    (hclass : v.isNull = false → x.isNull = true ∨ x.valueClass = v.valueClass) :
    Value.compareWith op x v =
      if op.seesNull || !x.isNull then .bool ((comparing op [v]).contains [x]) else .null := by
  rw [contains_comparing h]
  cases hx : x.isNull with
  | true =>
    have ho := Value.compare_of_isNull (b := v) hx
    cases hv : v.isNull <;> rw [hv] at ho <;> cases op <;> simp [Value.compareWith, Value.sqlCompare,
      Value.isSame, Comparison.holds, Comparison.seesNull, hx, hv, ho]
  | false =>
    cases hv : v.isNull with
    | true =>
      have ho := Value.compare_of_isNull_right (a := x) hv
      cases op <;> simp [Value.compareWith, Value.isSame, Comparison.holds, Comparison.seesNull, hx, hv,
        ho] at h ⊢
    | false =>
      have hc : x.valueClass = v.valueClass := (hclass hv).resolve_left (by simp [hx])
      have hbeq : (x == v) = (Ord.compare x v == .eq) := rfl
      cases op <;> simp [Value.compareWith, Value.sqlCompare, Value.isSame, Comparison.holds,
        Comparison.seesNull, hx, hv, hc, hbeq, bne]

end JoinPlanner.KeyRange
