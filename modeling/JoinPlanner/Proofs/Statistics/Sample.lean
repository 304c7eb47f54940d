import JoinPlanner.Proofs.Value.Order
import JoinPlanner.Statistics.Column
import Mathlib.Algebra.Order.Ring.Nat
import Mathlib.Data.List.Sort

/-!
# Samples

A sample is taken at even steps from the rows, put into an index by value and then by row, and thinned out at
even steps again. No row is taken twice, so that no entry of the index is one already there, however many
values are equal (`ColumnProfile.sortIndex_perm`); and its values stand as a stable sort of the sample leaves
them (`ColumnProfile.map_value_sortIndex`). So a profile holds the quantiles of the sample, in batches of any
size (`ColumnProfile.sampleInBatches_quantiles`).
-/

namespace JoinPlanner

/-- What is new is put in beside what is there. -/
theorem SortedSet.insertList_perm {α : Type} [Ord α] {a : α} {l : List α} (h : ∀ b ∈ l, compare a b ≠ .eq) :
    (insertList a l).Perm (a :: l) := by
  induction l with
  | nil => exact .refl _
  | cons b rest ih =>
    obtain ⟨hb, hrest⟩ := List.forall_mem_cons.1 h
    unfold insertList
    split
    · exact .refl _
    · next heq => exact absurd heq hb
    · exact ((ih hrest).cons b).trans (.swap a b rest)

namespace SampleEntry

variable {a b : SampleEntry}

def place (e : SampleEntry) : ValuePlace ×ₗ ℕ := toLex (e.value.place, e.row)

theorem compare_eq_place (a b : SampleEntry) : compare a b = compare a.place b.place := by
  show (compare a.value b.value).then (compare a.row b.row) = _
  rw [Value.compare_eq_place]
  rfl

instance : Std.TransOrd SampleEntry where
  eq_swap {a b} := by
    rw [compare_eq_place, compare_eq_place]
    exact Std.OrientedOrd.eq_swap
  isLE_trans {a b c} := by
    rw [compare_eq_place, compare_eq_place, compare_eq_place]
    exact Std.TransOrd.isLE_trans

theorem compare_eq_lt_iff : compare a b = .lt ↔ a.place < b.place := by
  rw [compare_eq_place, compare_lt_iff_lt]

theorem compare_ne_gt_iff : (compare a b != .gt) = true ↔ a.place ≤ b.place := by
  rw [bne_iff_ne, compare_eq_place, compare_le_iff_le]

theorem compare_ne_eq (h : a.row ≠ b.row) : compare a b ≠ .eq := by
  rw [compare_eq_place, Ne, compare_eq_iff_eq]
  exact fun hplace => h (congrArg (fun p => (ofLex p).2) hplace)

theorem value_place_le (h : compare a b = .lt) : a.value.place ≤ b.value.place :=
  (Prod.Lex.toLex_le_toLex'.1 (compare_eq_lt_iff.1 h).le).1

end SampleEntry

namespace ColumnProfile

variable {catalog : Catalog} {column : ColumnRef} {value : ℕ → Value} {rows : List ℕ}
  {entries index : List SampleEntry} {t : Table} {position : ℕ} {p : ColumnProfile} {points : List Value}

def entry (value : ℕ → Value) (row : ℕ) : SampleEntry := ⟨value row, row⟩

/-- Batches of any size make the index that all rows at once make. -/
theorem indexInBatches_eq (h : ∀ rows, catalog.fetch column.table column.column rows = .ok (rows.map value))
    (size : ℕ) (index : List SampleEntry) (rows : List ℕ) :
    indexInBatches catalog column size index rows = .ok (sortIndex index (rows.map (entry value))) := by
  fun_induction indexInBatches catalog column size index rows with
  | case1 => rfl
  | case2 index row rows batch ih =>
    have hbatch : (batch.map value).zipWith SampleEntry.mk batch = batch.map (entry value) := by
      rw [List.zipWith_map_left, List.zipWith_self]
      rfl
    rw [h]
    refine (ih _).trans ?_
    rw [hbatch, sortIndex, sortIndex, sortIndex, ← List.foldl_append, ← List.map_append, List.cons_append,
      List.take_append_drop]

theorem ascending_sortIndex (h : index.Pairwise fun a b => compare a b = .lt) (entries : List SampleEntry) :
    (sortIndex index entries).Pairwise fun a b => compare a b = .lt := by
  induction entries generalizing index with
  | nil => exact h
  | cons e rest ih => exact ih (SortedSet.ascending_insertList h)

theorem ascending_indexInBatches {size : ℕ} (h : index.Pairwise fun a b => compare a b = .lt)
    {result : List SampleEntry} (hresult : indexInBatches catalog column size index rows = .ok result) :
    result.Pairwise fun a b => compare a b = .lt := by
  fun_induction indexInBatches catalog column size index rows with
  | case1 => cases hresult; exact h
  | case2 index row rows batch ih =>
    obtain ⟨values, -, hresult⟩ := bind_eq_ok.1 hresult
    exact ih values (ascending_sortIndex h _) hresult

/-- Entries of rows that differ from one another and from those of the index all go in. -/
theorem sortIndex_perm (h : ((index ++ entries).map (·.row)).Nodup) :
    (sortIndex index entries).Perm (index ++ entries) := by
  induction entries generalizing index with
  | nil => simp [sortIndex]
  | cons e rest ih =>
    have hnew : ∀ b ∈ index, compare e b ≠ .eq := by
      intro b hb
      rw [List.map_append, List.nodup_append] at h
      exact SampleEntry.compare_ne_eq (h.2.2 _ (List.mem_map_of_mem hb) _ List.mem_cons_self).symm
    have hrest : (SortedSet.insertList e index ++ rest).Perm (index ++ e :: rest) :=
      ((SortedSet.insertList_perm hnew).append_right rest).trans List.perm_middle.symm
    exact (ih ((hrest.map _).nodup_iff.2 h)).trans hrest

theorem nodup_rows_entries (hrows : rows.Pairwise (· < ·)) : ((rows.map (entry value)).map (·.row)).Nodup := by
  rw [List.map_map]
  exact (List.map_id rows).symm ▸ hrows.imp ne_of_lt

theorem sortIndex_eq_mergeSort (h : (entries.map (·.row)).Nodup) :
    sortIndex [] entries = entries.mergeSort fun a b => compare a b != .gt := by
  have hperm : (sortIndex [] entries).Perm entries := sortIndex_perm h
  have hsorted : (entries.mergeSort fun a b => compare a b != .gt).Pairwise fun a b => (compare a b != .gt) = true := by
    refine List.pairwise_mergeSort (fun a b c hab hbc => ?_) (fun a b => ?_) entries
    · rw [SampleEntry.compare_ne_gt_iff] at hab hbc ⊢
      exact hab.trans hbc
    · rw [Bool.or_eq_true, SampleEntry.compare_ne_gt_iff, SampleEntry.compare_ne_gt_iff]
      exact le_total _ _
  refine List.Perm.eq_of_pairwise (fun a b ha hb hab hba => ?_)
    ((ascending_sortIndex .nil entries).imp fun {a b} hlt => by rw [hlt]; rfl) hsorted
    (hperm.trans (List.mergeSort_perm _ _).symm)
  -- entries of one place are from one row
  rw [SampleEntry.compare_ne_gt_iff] at hab hba
  have hrow : a.row = b.row := congrArg (fun p => (ofLex p).2) (le_antisymm hab hba)
  exact List.inj_on_of_nodup_map h (hperm.mem_iff.1 ha) ((List.mergeSort_perm _ _).mem_iff.1 hb) hrow

/-- The values of the index are the sample in a stable order. -/
theorem map_value_sortIndex (hrows : rows.Pairwise (· < ·)) :
    (sortIndex [] (rows.map (entry value))).map SampleEntry.value =
      (rows.map value).mergeSort fun a b => compare a b != .gt := by
  -- an entry of the list of values with their positions in it stands for the row at the position
  let placed (p : Value × ℕ) : SampleEntry := ⟨p.1, rows.getD p.2 0⟩
  have hplaced : (rows.map value).zipIdx.map placed = rows.map (entry value) := by
    refine List.ext_getElem (by simp) fun i hi _ => ?_
    simp only [List.length_map, List.length_zipIdx] at hi
    simp [placed, entry, hi]
  have hrow {p q : Value × ℕ} (hp : p ∈ (rows.map value).zipIdx) (hq : q ∈ (rows.map value).zipIdx) :
      (placed p).row ≤ (placed q).row ↔ p.2 ≤ q.2 := by
    obtain ⟨hi, -⟩ := List.getElem?_eq_some_iff.1 (List.mem_zipIdx_iff_getElem?.1 hp)
    obtain ⟨hj, -⟩ := List.getElem?_eq_some_iff.1 (List.mem_zipIdx_iff_getElem?.1 hq)
    rw [List.length_map] at hi hj
    simpa [placed, hi, hj] using hrows.sortedLT.strictMono_get.le_iff_le (a := ⟨p.2, hi⟩) (b := ⟨q.2, hj⟩)
  have hle : ∀ p ∈ (rows.map value).zipIdx, ∀ q ∈ (rows.map value).zipIdx,
      List.zipIdxLE (fun a b => compare a b != .gt) p q = (compare (placed p) (placed q) != .gt) := by
    intro p hp q hq
    have hvalue (a b : Value) : (compare a b != .gt) = true ↔ a.place ≤ b.place := by
      rw [bne_iff_ne, Value.compare_eq_place, compare_le_iff_le]
    rw [Bool.eq_iff_iff, SampleEntry.compare_ne_gt_iff, SampleEntry.place, SampleEntry.place,
      Prod.Lex.toLex_le_toLex, hrow hp hq, List.zipIdxLE]
    simp only [hvalue]
    split
    · next hpq =>
      split
      · next hqp => simp [placed, le_antisymm hpq hqp]
      · next hqp => simp [placed, not_le.1 hqp]
    · next hpq => simp [placed, (not_le.1 hpq).ne', not_lt.2 (not_le.1 hpq).le]
  rw [sortIndex_eq_mergeSort (nodup_rows_entries hrows), ← hplaced, ← List.map_mergeSort hle, List.map_map]
  exact List.mergeSort_zipIdx

section Positions

variable {n count : ℕ}

theorem pairwise_samplePositions (hcount : count ≤ n) : (samplePositions n count).Pairwise (· < ·) := by
  rw [samplePositions, List.pairwise_map]
  refine List.pairwise_lt_range.imp_of_mem fun {i j} hi _ hij => ?_
  have hpos : 0 < count := (Nat.zero_le i).trans_lt (List.mem_range.1 hi)
  calc i * n / count < i * n / count + 1 := Nat.lt_succ_self _
    _ = (i * n + count) / count := (Nat.add_div_right _ hpos).symm
    _ ≤ (i * n + n) / count := Nat.div_le_div_right (Nat.add_le_add_left hcount _)
    _ ≤ j * n / count := Nat.div_le_div_right (by rw [← Nat.succ_mul]; exact Nat.mul_le_mul_right n hij)

theorem lt_of_mem_samplePositions (hn : 0 < n) : ∀ row ∈ samplePositions n count, row < n := by
  intro row hrow
  obtain ⟨i, hi, rfl⟩ := List.mem_map.1 hrow
  refine Nat.div_lt_of_lt_mul ?_
  exact Nat.mul_lt_mul_of_pos_right (List.mem_range.1 hi) hn

/-- The steps are taken in words of 64 bits, where no product overflows. -/
theorem samplePositions_eq_words (hcount : count ≤ maxSampleSize) (hn : 1023 * n < 2 ^ 64) :
    samplePositions n count =
      (List.range count).map fun i => (UInt64.ofNat i * UInt64.ofNat n / UInt64.ofNat count).toNat := by
  refine List.map_congr_left fun i hi => ?_
  have hi := List.mem_range.1 hi
  have hcount : count ≤ 1024 := hcount
  have hproduct : i * n < 2 ^ 64 := (Nat.mul_le_mul_right n (by omega : i ≤ 1023)).trans_lt hn
  have hword {m : ℕ} (h : m < 2 ^ 64) : (UInt64.ofNat m).toNat = m := UInt64.toNat_ofNat_of_lt' h
  rw [UInt64.toNat_div, UInt64.toNat_mul, hword (by omega), hword (by omega), hword (by omega),
    Nat.mod_eq_of_lt hproduct]

end Positions

/-! ### Samples -/

/-- The points stand in the order of values. -/
def Sorted (points : List Value) : Prop := points.Pairwise fun v w => compare v w ≠ .gt

theorem sorted_iff : Sorted points ↔ points.Pairwise fun v w => v.place ≤ w.place := by
  refine List.Pairwise.iff fun v w => ?_
  rw [Value.compare_eq_place, compare_le_iff_le]

theorem sorted_map_value (h : index.Pairwise fun a b => compare a b = .lt) : Sorted (index.map (·.value)) := by
  rw [sorted_iff, List.pairwise_map]
  exact h.imp SampleEntry.value_place_le

/-- Points at later steps of a sorted list are not smaller. -/
theorem sorted_pointsOf {sorted : Array Value} (h : Sorted sorted.toList) : Sorted (pointsOf sorted) := by
  rw [sorted_iff, List.pairwise_iff_getElem] at h
  rw [sorted_iff, pointsOf, List.pairwise_filterMap]
  refine List.pairwise_lt_range.imp fun {i j} hij x hx y hy => ?_
  obtain ⟨hi, rfl⟩ := Array.getElem?_eq_some_iff.1 hx
  obtain ⟨hj, rfl⟩ := Array.getElem?_eq_some_iff.1 hy
  have hle : i * sorted.size / divisionPoints ≤ j * sorted.size / divisionPoints :=
    Nat.div_le_div_right (Nat.mul_le_mul_right _ hij.le)
  rcases hle.eq_or_lt with heq | hlt
  · simp only [heq, le_refl]
  · exact h _ _ (by simpa using hi) (by simpa using hj) hlt

theorem sorted_of_sample (h : sample catalog column = .ok p) : Sorted p.points := by
  obtain ⟨rowCount, -, h⟩ := bind_eq_ok.1 h
  split at h
  · cases h
    exact .nil
  · obtain ⟨index, hindex, h⟩ := bind_eq_ok.1 h
    cases h
    exact sorted_pointsOf (sorted_map_value (ascending_indexInBatches .nil hindex))

/-- Of any values at all there are 32 points, those at even steps. -/
theorem points_pointsOf {sorted : Array Value} (h : 0 < sorted.size) :
    (pointsOf sorted).length = divisionPoints ∧ ∀ k < divisionPoints, ∃ v, (pointsOf sorted)[k]? = some v ∧
      sorted[k * sorted.size / divisionPoints]? = some v := by
  have hlt {k : ℕ} (hk : k < divisionPoints) : k * sorted.size / divisionPoints < sorted.size :=
    Nat.div_lt_of_lt_mul (Nat.mul_lt_mul_of_pos_right hk h)
  have hmap : pointsOf sorted =
      (List.range divisionPoints).map fun k => sorted.getD (k * sorted.size / divisionPoints) .null := by
    refine List.filterMap_eq_map_iff_forall_eq_some.2 fun k hk => ?_
    simp [hlt (List.mem_range.1 hk)]
  refine ⟨by simp [hmap], fun k hk => ⟨_, ?_, Array.getElem?_eq_getElem (hlt hk)⟩⟩
  simp [hmap, hk, hlt hk]

/-- What a catalog fetches of a column that it has. -/
theorem fetch_eq (htable : catalog.table column.table = .ok t)
    (hposition : t.position column.table column.column = .ok position) (rows : List ℕ) :
    catalog.fetch column.table column.column rows = .ok (rows.map (t.value · position)) := by
  rw [Catalog.fetch, htable]
  change (t.position column.table column.column >>= fun position => _) = _
  rw [hposition]
  rfl

/-- The profile of a column of a table that has rows enough, from the index of all its rows. -/
theorem sampleInBatches_eq (htable : catalog.table column.table = .ok t)
    (hposition : t.position column.table column.column = .ok position) (hrows : minSampledRows ≤ t.rows.size)
    (size : ℕ) : sampleInBatches catalog column size =
      .ok ⟨t.rows.size, min (t.rows.size / 2) maxSampleSize,
        pointsOf (((samplePositions t.rows.size (min (t.rows.size / 2) maxSampleSize)).map (t.value · position)).mergeSort
          fun a b => compare a b != .gt).toArray⟩ := by
  have hcount : catalog.rowCount column.table = .ok t.rows.size := by
    rw [Catalog.rowCount, htable]
    rfl
  rw [sampleInBatches, hcount, ← map_value_sortIndex (pairwise_samplePositions (by omega))]
  change (if t.rows.size < minSampledRows then _ else _ >>= _) = _
  rw [if_neg (not_lt.2 hrows), indexInBatches_eq (fetch_eq htable hposition)]
  rfl

/-- A profile holds the quantiles of a sample that is taken at even steps, whatever values are equal and however
many are fetched at a time. -/
theorem sampleInBatches_quantiles (htable : catalog.table column.table = .ok t)
    (hposition : t.position column.table column.column = .ok position) (hrows : 64 ≤ t.rows.size)
    (hwords : 1023 * t.rows.size < 2 ^ 64) :
    let count := min (t.rows.size / 2) 1024
    let rows := samplePositions t.rows.size count
    let sorted := (rows.map (t.value · position)).mergeSort fun a b => compare a b != .gt
    rows = (List.range count).map
      (fun i => (UInt64.ofNat i * UInt64.ofNat t.rows.size / UInt64.ofNat count).toNat) ∧
    rows.length = count ∧ rows.Pairwise (· < ·) ∧ (∀ row ∈ rows, row < t.rows.size) ∧
    (∃ index, (∀ size, indexInBatches catalog column size [] rows = .ok index) ∧
      index.Perm (rows.map fun row => ⟨t.value row position, row⟩) ∧ index.length = count ∧
      index.Pairwise (fun a b => compare a b = .lt) ∧ index.map (·.value) = sorted) ∧
    ∃ p, (∀ size, sampleInBatches catalog column size = .ok p) ∧ sample catalog column = .ok p ∧
      p.rowCount = t.rows.size ∧ p.sampleCount = count ∧ p.points.length = 32 ∧
      p.points.Pairwise (fun v w => compare v w ≠ .gt) ∧
      ∀ k < 32, ∃ v, p.points[k]? = some v ∧ sorted[k * count / 32]? = some v := by
  intro count rows sorted
  have hcount : count ≤ t.rows.size := (min_le_left _ _).trans (Nat.div_le_self _ _)
  have hascending : rows.Pairwise (· < ·) := pairwise_samplePositions hcount
  have hlength : rows.length = count := by simp [rows, samplePositions]
  have hperm : (sortIndex [] (rows.map (entry (t.value · position)))).Perm _ :=
    sortIndex_perm (nodup_rows_entries hascending)
  have hsize : sorted.toArray.size = count := by simp [sorted, hlength]
  obtain ⟨hpoints, hsteps⟩ := points_pointsOf (by omega : 0 < sorted.toArray.size)
  have hsample (size : ℕ) := sampleInBatches_eq htable hposition hrows size
  have hindex (size : ℕ) := indexInBatches_eq (fetch_eq htable hposition) size [] rows
  refine ⟨samplePositions_eq_words (min_le_right _ _) hwords, hlength, hascending,
    lt_of_mem_samplePositions (by omega), ⟨_, hindex, hperm, by simpa [hlength] using hperm.length_eq,
      ascending_sortIndex .nil _, map_value_sortIndex hascending⟩,
    _, hsample, hsample 23, rfl, rfl, hpoints, sorted_of_sample (hsample 23), fun k hk => ?_⟩
  obtain ⟨v, hv, hsorted⟩ := hsteps k hk
  rw [hsize, List.getElem?_toArray] at hsorted
  exact ⟨v, hv, hsorted⟩

/-- A table of 100 rows: 50 zeros, and then 50 ones. -/
def zerosAndOnes : Table where
  columns := ["x"]
  rows := ⟨(List.range 100).map fun i => [.int (.ofNat (i / 50))]⟩

/-- The 50 rows that are sampled have two values, which are 16 points each. -/
theorem sampleInBatches_quantiles_zerosAndOnes : ∃ p,
    (∀ size, sampleInBatches ⟨[(⟨none, "t"⟩, zerosAndOnes)]⟩ ⟨⟨none, "t"⟩, "x"⟩ size = .ok p) ∧ p.sampleCount = 50 ∧
    p.points = List.replicate 16 (.int 0) ++ List.replicate 16 (.int 1) := by
  have htable : Catalog.table ⟨[(⟨none, "t"⟩, zerosAndOnes)]⟩ ⟨none, "t"⟩ = .ok zerosAndOnes := by
    rw [Catalog.table, List.lookup_cons_self]
  have hposition : zerosAndOnes.position ⟨none, "t"⟩ "x" = .ok 0 := rfl
  obtain ⟨-, -, -, -, -, p, hsample, -, -, hcount, hlength, -, hpoints⟩ :=
    @sampleInBatches_quantiles _ ⟨⟨none, "t"⟩, "x"⟩ _ _ htable hposition (by decide) (by decide)
  let values (n : ℕ) : List Value := List.replicate n (.int 0) ++ List.replicate n (.int 1)
  have hvalues : (samplePositions 100 50).map (zerosAndOnes.value · 0) = values 25 := rfl
  have hsorted : (values 25).Pairwise fun v w => (compare v w != .gt) = true := by decide +kernel
  have hsteps : (List.range 32).map (fun k => (values 25)[k * 50 / 32]?) = (List.range 32).map ((values 16)[·]?) := rfl
  change ∀ k < 32, ∃ v, p.points[k]? = some v ∧
    (((samplePositions 100 50).map (zerosAndOnes.value · 0)).mergeSort _)[k * 50 / 32]? = some v at hpoints
  rw [hvalues, List.mergeSort_of_pairwise hsorted] at hpoints
  refine ⟨p, hsample, hcount, List.ext_getElem? fun k => ?_⟩
  by_cases hk : k < 32
  · obtain ⟨v, hv, hsample⟩ := hpoints k hk
    rw [hv, ← hsample, List.map_inj_left.1 hsteps k (List.mem_range.2 hk)]
  · rw [List.getElem?_eq_none (by omega), List.getElem?_eq_none (by simp; omega)]

end ColumnProfile

end JoinPlanner
