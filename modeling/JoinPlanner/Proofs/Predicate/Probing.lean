import JoinPlanner.Proofs.Predicate.Posed
import JoinPlanner.Proofs.Range.Equality
import JoinPlanner.Proofs.Range.Membership
import JoinPlanner.Proofs.Rows.Basic

/-!
# Probes of filters

A filter of one relation may probe an index instead of reading all rows. `AccessContext.contains_of_mark`: no row
is lost so; every row that lies in all ranges of the filter has a key in the range that is probed, and where the
probe is a point of an index without repeated columns, and no column is in two ranges, only such a row has.
-/

namespace JoinPlanner

namespace Expr

/-- The ranges of columns among the conjuncts of a condition. -/
def rangeTerms (e : Expr) : List (ColumnRef × KeyRange) := e.conjuncts.filterMap rangeTerm?

/-- The values of a row of the condition's only relation lie in all ranges of the condition. -/
def RangesHold (e : Expr) (tuple : Tuple) : Prop := ∀ t ∈ e.rangeTerms, t.2.contains [tuple t.1.column] = true

theorem mem_rangeTerms {e : Expr} {c : ColumnRef} {range : KeyRange} :
    (c, range) ∈ e.rangeTerms ↔ ∃ term ∈ e.conjuncts, term.rangeTerm? = some (c, range) := by
  simp [rangeTerms]

end Expr

theorem Key.compare_eq_eq_iff {a b : Key} (h : a.length = b.length) :
    Key.compare a b = .eq ↔ List.Forall₂ (fun x y => Ord.compare x y = .eq) a b := by
  induction a generalizing b with
  | nil => cases b <;> simp_all [Key.compare]
  | cons x a ih =>
    cases b with
    | nil => cases h
    | cons y b => rw [Key.compare, Ordering.then_eq_eq, List.forall₂_cons, ih (Nat.succ.inj h)]

namespace KeyRange

variable {r : KeyRange} {key k : Key}

theorem contains_point_interval {lower upper : Key} (h : (lower == upper) = true) :
    (⟨.before lower, .after upper⟩ : KeyInterval).contains k = (Key.compare lower k == .eq) := by
  have hupper := Key.compare_congr (Key.beq_iff.1 h) k
  rw [KeyInterval.contains, KeyBound.compareKey, KeyBound.compareKey, ← hupper]
  cases Key.compare lower k <;> rfl

theorem contains_comparing_eq (hkey : key ≠ []) (hk : key.length ≤ k.length) :
    (comparing .eq key).contains k = (Key.compare key k == .eq) := by
  rw [comparing, contains_ofIntervals (List.length_pos_iff.2 hkey) (hasWidth_comparisonIntervals .eq key) hk]
  rw [comparisonIntervals, List.any_cons, contains_point_interval (Key.beq_iff.2 rfl), List.any_nil, Bool.or_false]

/-- A row has the key of a point if it has the value of the point in every column. -/
theorem contains_comparing_map {columns : List String} {tuple : Tuple} (hkey : key ≠ [])
    (h : columns.length = key.length) : (comparing .eq key).contains (columns.map tuple) = true ↔
      List.Forall₂ (fun v c => Ord.compare v (tuple c) = .eq) key columns := by
  rw [contains_comparing_eq hkey (by simp [h]), beq_iff_eq, Key.compare_eq_eq_iff (by simp [h]),
    List.forall₂_map_right_iff]

theorem contains_of_point? (h : r.point? = some key) : r.contains k = (Key.compare key k == .eq) := by
  unfold point? at h
  split at h
  · next lower upper hintervals =>
    split at h
    · next hbeq =>
      cases h
      rw [contains, hintervals, List.any_cons, contains_point_interval hbeq, List.any_nil, Bool.or_false]
    · cases h
  · cases h

theorem WellFormed.length_of_point? (hr : r.WellFormed) (h : r.point? = some key) : key.length = r.width := by
  unfold point? at h
  split at h
  · next lower upper hintervals =>
    split at h
    · cases h
      have hmem : ⟨.before key, .after upper⟩ ∈ r.intervals := by simp [hintervals]
      exact (hr.hasWidth _ hmem).lower _ rfl
    · cases h
  · cases h

end KeyRange

namespace Expr

theorem of_pointTerm? {e : Expr} {p : String × Value} (h : e.pointTerm? = some p) :
    ∃ c range, e.rangeTerm? = some (c, range) ∧ p.1 = c.column ∧
      ∀ tuple : Tuple, range.contains [tuple c.column] = true ↔ Ord.compare p.2 (tuple c.column) = .eq := by
  unfold pointTerm? at h
  split at h
  · next c range hrange =>
    split at h
    · next v _ hpoint =>
      cases h
      refine ⟨c, range, hrange, rfl, fun tuple => ?_⟩
      rw [KeyRange.contains_of_point? hpoint, beq_iff_eq]
      exact Ordering.then_eq_eq.trans (and_iff_left rfl)
    · cases h
  · cases h

end Expr

namespace AccessContext

/-- Of the points of a column the last is kept. -/
theorem mem_latest {points found : List (String × Value)} {p : String × Value}
    (h : p ∈ points.foldl (fun found p => p :: found.filter (·.1 != p.1)) found) : p ∈ points ∨ p ∈ found := by
  induction points generalizing found with
  | nil => exact .inr h
  | cons q points ih =>
    rcases ih h with h | h
    · exact .inl (.tail _ h)
    · rcases List.mem_cons.1 h with rfl | h
      · exact .inl (.head _)
      · exact .inr (List.mem_of_mem_filter h)

/-- No column is lost. -/
theorem exists_mem_latest {points found : List (String × Value)} {p : String × Value} (h : p ∈ points ∨ p ∈ found) :
    ∃ v, (p.1, v) ∈ points.foldl (fun found p => p :: found.filter (·.1 != p.1)) found := by
  induction points generalizing found p with
  | nil => exact ⟨p.2, h.resolve_left List.not_mem_nil⟩
  | cons q points ih =>
    rcases h with h | h
    · rcases List.mem_cons.1 h with rfl | h
      · exact ih (.inr (.head _))
      · exact ih (.inl h)
    · by_cases hq : p.1 = q.1
      · rw [hq]
        exact ih (.inr (.head _))
      · exact ih (.inr (.tail _ (List.mem_filter.2 ⟨h, bne_iff_ne.2 hq⟩)))

variable {terms : List Expr} {values : List (String × Value)}

theorem mem_of_lookup {c : String} {v : Value} (h : values.lookup c = some v) : (c, v) ∈ values := by
  obtain ⟨before, after, rfl, -⟩ := List.lookup_eq_some_iff.1 h
  exact List.mem_append_right _ (.head _)

theorem of_mem_pointValues (h : pointValues terms = some values) {p : String × Value} (hp : p ∈ values) :
    ∃ term ∈ terms, term.pointTerm? = some p := by
  obtain ⟨points, hpoints, rfl⟩ := Option.map_eq_some_iff.1 h
  have hp : p ∈ points := (mem_latest hp).resolve_right List.not_mem_nil
  exact exists_of_forall₂ (mapM_eq_some_iff.1 hpoints) hp

theorem exists_of_pointValues (h : pointValues terms = some values) {term : Expr} (hterm : term ∈ terms) :
    ∃ p, term.pointTerm? = some p ∧ ∃ v, (p.1, v) ∈ values := by
  obtain ⟨points, hpoints, rfl⟩ := Option.map_eq_some_iff.1 h
  obtain ⟨p, hp, hpoint⟩ := exists_of_forall₂ (mapM_eq_some_iff.1 hpoints).flip hterm
  exact ⟨p, hpoint, exists_mem_latest (.inl hp)⟩

/-! ### What is probed -/

variable {i : IndexDef} {range : KeyRange} {condition : Expr}

/-- A row in all ranges of the condition is among those probed. -/
theorem Probes.contains (h : Probes condition.conjuncts i range)
    (hranges : ∀ t ∈ condition.rangeTerms, t.2.WellFormed ∧ t.2.width = 1) {tuple : Tuple}
    (htuple : condition.RangesHold tuple) : range.contains (i.columns.map tuple) = true := by
  cases h with
  | @point values key points many found =>
    obtain ⟨hlength, hkey⟩ := of_keyOf? found
    have hkeylength : i.columns.length = key.length := hkey.length_eq
    have hne : key ≠ [] := List.length_pos_iff.1 (by omega)
    refine (KeyRange.contains_comparing_map hne hkeylength).2 (hkey.imp fun c v hlookup => ?_).flip
    obtain ⟨term, hterm, hpoint⟩ := of_mem_pointValues points (mem_of_lookup hlookup)
    obtain ⟨col, range, hrange, rfl, hiff⟩ := Expr.of_pointTerm? hpoint
    exact (hiff tuple).1 (htuple _ (Expr.mem_rangeTerms.2 ⟨term, hterm, hrange⟩))
  | @leading term c _ hterm ranges leads =>
    have hmem : (c, range) ∈ condition.rangeTerms := Expr.mem_rangeTerms.2 ⟨term, hterm, ranges⟩
    obtain ⟨hwell, hwidth⟩ : range.WellFormed ∧ range.width = 1 := hranges _ hmem
    obtain ⟨rest, hcolumns⟩ := List.head?_eq_some_iff.1 (i.head?_columns.trans leads)
    rw [hcolumns, List.map_cons, ← hwell.contains_take (by simp [hwidth]), hwidth]
    exact htuple _ hmem

/-- Where the probe is a point of an index of distinct columns, and no column is in two ranges, a row that is
probed lies in all ranges of the condition. -/
theorem Probes.rangesHold (h : Probes condition.conjuncts i range)
    (hranges : ∀ t ∈ condition.rangeTerms, t.2.WellFormed ∧ t.2.width = 1) {key : Key}
    (hpoint : range.point? = some key) (hkey : 1 < key.length) (hcolumns : i.columns.Nodup)
    (honce : (condition.rangeTerms.map (·.1.column)).Nodup) {tuple : Tuple}
    (htuple : range.contains (i.columns.map tuple) = true) : condition.RangesHold tuple := by
  cases h with
  | @point values key' points many found =>
    obtain ⟨hlength, hlookup⟩ := of_keyOf? found
    have hkeylength : i.columns.length = key'.length := hlookup.length_eq
    have hne : key' ≠ [] := List.length_pos_iff.1 (by omega)
    rw [KeyRange.contains_comparing_map hne hkeylength] at htuple
    rintro ⟨c, r⟩ hmem
    obtain ⟨term, hterm, hrange⟩ := Expr.mem_rangeTerms.1 hmem
    -- the index has no other columns than those of the points, so it has them all
    have hsubset : i.columns ⊆ values.map (·.1) := fun column hcolumn => by
      obtain ⟨v, -, hv⟩ := exists_of_forall₂ hlookup.flip hcolumn
      exact List.mem_map_of_mem (mem_of_lookup hv)
    have hperm : i.columns.Perm (values.map (·.1)) :=
      (List.subperm_of_subset hcolumns hsubset).perm_of_length_le (by simp [hlength])
    have hcolumn : c.column ∈ i.columns := by
      obtain ⟨p, hp, v, hv⟩ := exists_of_pointValues points hterm
      obtain ⟨c', r', hrange', hcolumn, -⟩ := Expr.of_pointTerm? hp
      cases hrange.symm.trans hrange'
      exact hperm.mem_iff.2 (List.mem_map.2 ⟨_, hv, hcolumn⟩)
    obtain ⟨v, -, hv, hequal⟩ := exists_of_forall₂ (hlookup.mp (fun _ _ => And.intro) htuple.flip).flip hcolumn
    obtain ⟨term', hterm', hp⟩ := of_mem_pointValues points (mem_of_lookup hv)
    obtain ⟨c', r', hrange', hcolumn', hiff⟩ := Expr.of_pointTerm? hp
    have hsame : (c, r) = (c', r') :=
      List.inj_on_of_nodup_map honce hmem (Expr.mem_rangeTerms.2 ⟨term', hterm', hrange'⟩) hcolumn'
    cases hsame
    exact (hiff tuple).2 hequal
  | @leading term c _ hterm ranges leads =>
    obtain ⟨hwell, hwidth⟩ := hranges _ (Expr.mem_rangeTerms.2 ⟨term, hterm, ranges⟩)
    have := hwell.length_of_point? hpoint
    omega

variable {κ : Type} [CostNumber κ] {p : Predicate} {name : TableName} {path : AccessPath}

/-- The paths of a predicate over one relation probe a range that holds the key of every row in all ranges of the
condition; where it is a point of distinct columns, and no column is in two ranges, of such rows only. -/
theorem contains_of_mark (m : AccessContext) (s : Statistics κ) (only : p.condition.tables.toList = [name])
    (hranges : ∀ t ∈ p.condition.rangeTerms, t.2.WellFormed ∧ t.2.width = 1)
    (hpath : path ∈ ((m.mark.run.run p).run s).1.2.paths) : ∃ range, path.range = some range ∧
      (∀ tuple, p.condition.RangesHold tuple → range.contains (path.columns.map tuple) = true) ∧
      ∀ key, range.point? = some key → 1 < key.length → path.columns.Nodup →
        (p.condition.rangeTerms.map (·.1.column)).Nodup →
          ∀ tuple, range.contains (path.columns.map tuple) = true → p.condition.RangesHold tuple := by
  cases (m.marks_mark p s).paths path hpath with
  | filter _ found mem =>
    obtain ⟨i, range, hserves, hrange, hprobes⟩ := exists_of_filterPaths found mem
    refine ⟨range, hrange, fun tuple htuple => ?_, fun key hpoint hkey hcolumns honce tuple htuple => ?_⟩
    · rw [hserves.columns]
      exact hprobes.contains hranges htuple
    · rw [hserves.columns] at hcolumns htuple
      exact hprobes.rangesHold hranges hpoint hkey hcolumns honce htuple
  | join reads found mem =>
    -- a condition over one relation equates no columns of two
    obtain ⟨i, -, -, c, hc, -⟩ := exists_of_joinPaths found mem
    obtain ⟨l, r, hpair, -⟩ := mem_columnsOf.1 hc
    obtain ⟨hl, hr⟩ := Expr.mem_columns_of_mem_columnPairs hpair
    have honly {c : ColumnRef} (hc : c ∈ p.condition.columns) : c.table = name := by
      have htable : c.table ∈ p.condition.tables := Expr.mem_tables.2 ⟨c, hc, rfl⟩
      rwa [SortedSet.mem_def, only, List.mem_singleton] at htable
    exact absurd ((honly hl).trans (honly hr).symm) (Expr.mem_columnPairs.1 hpair).2

/-- A table with an index on the columns `y` and `x`, and one on `x`. -/
def twoIndexes : AccessContext where
  catalog := ⟨[(⟨none, "t"⟩, ⟨["x", "y"], #[], [.ofColumns "yx" ["y", "x"], .ofColumns "x" ["x"]]⟩)]⟩
  baseTables := [(⟨none, "a"⟩, ⟨none, "t"⟩)]
  sampleFacts := false

/-- `a.x = 1 AND a.y = 2`. -/
def twoPoints : Predicate :=
  let point (c : String) (v : Value) : Expr := .inRange ⟨⟨none, "a"⟩, c⟩ (.comparing .eq [v])
  .ofCondition (.apply .and [point "x" (.int 1), point "y" (.int 2)]) ∅

/-- The point of an index whose columns stand in another order than the ranges: exactly the rows that are wanted. -/
theorem contains_of_mark_twoPoints :
    ∃ path ∈ ((twoIndexes.mark.run.run twoPoints).run (default : Statistics Float)).1.2.paths,
      path.columns = ["y", "x"] ∧ ∃ range, path.range = some range ∧
        ∀ tuple : Tuple, range.contains [tuple "y", tuple "x"] = true ↔ twoPoints.condition.RangesHold tuple := by
  have hpaths : ((twoIndexes.mark.run.run twoPoints).run (default : Statistics Float)).1.2.paths.any (fun path =>
      path.columns = ["y", "x"] ∧ (path.range.bind KeyRange.point?).map List.length = some 2) = true := by
    decide +kernel
  obtain ⟨path, hpath, hfound⟩ := List.any_eq_true.1 hpaths
  obtain ⟨hcolumns, hpoint⟩ := of_decide_eq_true hfound
  have hranges : ∀ t ∈ twoPoints.condition.rangeTerms, t.2.WellFormed ∧ t.2.width = 1 := by
    intro t ht
    obtain rfl | rfl := List.mem_pair.1 ht <;> exact ⟨.comparing .eq (List.cons_ne_nil _ _), rfl⟩
  have honly : twoPoints.condition.tables.toList = [⟨none, "a"⟩] := by decide +kernel
  obtain ⟨range, hrange, hkept, hexact⟩ := contains_of_mark twoIndexes default honly hranges hpath
  obtain ⟨key, hkey, hlength⟩ := Option.map_eq_some_iff.1 (hrange ▸ hpoint)
  rw [hcolumns] at hkept hexact
  have hmany : 1 < key.length := by omega
  refine ⟨path, hpath, hcolumns, range, hrange, fun tuple => ?_⟩
  exact ⟨hexact key hkey hmany (by decide) (by decide) tuple, hkept tuple⟩

end AccessContext

end JoinPlanner
