import JoinPlanner.Catalog
import JoinPlanner.SortedSet

/-!
# Column profiles

A profile keeps 32 division points of a column, taken at even steps from a sorted sample of its
values, itself taken at even steps from the rows. The sample is sorted by an index, in which values
go with their rows, so that equal values of two rows both count. Selectivities are counted in
points, out of 32; a column with too few rows to sample is taken at its worst, 32.
-/

namespace JoinPlanner

/-- A table with fewer rows is not sampled. -/
def minSampledRows : Nat := 64

def maxSampleSize : Nat := 1024

def divisionPoints : Nat := 32

/-- The division points of a column; there are none if the table is too small to sample. -/
structure ColumnProfile where
  rowCount : Nat
  sampleCount : Nat
  points : List Value
deriving BEq, Inhabited, Repr

/-- A sampled value and the row that it is from. -/
structure SampleEntry where
  value : Value
  row : Nat
deriving Inhabited, Repr

/-- By value, and among equal values by row. -/
instance : Ord SampleEntry := ⟨compareLex (compareOn SampleEntry.value) (compareOn SampleEntry.row)⟩

namespace ColumnProfile

def samplePositions (rowCount sampleCount : Nat) : List Nat :=
  (List.range sampleCount).map fun i => i * rowCount / sampleCount

/-- Puts entries into an index, which keeps its order and takes no entry twice. -/
def sortIndex (index entries : List SampleEntry) : List SampleEntry :=
  entries.foldl (fun index e => SortedSet.insertList e index) index

/-- The index of the values at row positions, fetched at most `size + 1` at a time. -/
def indexInBatches (catalog : Catalog) (column : ColumnRef) (size : Nat) (index : List SampleEntry) :
    List Nat → Except CatalogError (List SampleEntry)
  | [] => return index
  | row :: rows => do
    let batch := row :: rows.take size
    let values ← catalog.fetch column.table column.column batch
    indexInBatches catalog column size (sortIndex index (values.zipWith .mk batch)) (rows.drop size)
termination_by rows => rows.length
decreasing_by simp only [List.length_cons, List.length_drop]; omega

def pointsOf (sorted : Array Value) : List Value :=
  (List.range divisionPoints).filterMap fun k => sorted[k * sorted.size / divisionPoints]?

def sampleInBatches (catalog : Catalog) (column : ColumnRef) (size : Nat) :
    Except CatalogError ColumnProfile := do
  let rowCount ← catalog.rowCount column.table
  if rowCount < minSampledRows then
    return { rowCount, sampleCount := 0, points := [] }
  let sampleCount := min (rowCount / 2) maxSampleSize
  let index ← indexInBatches catalog column size [] (samplePositions rowCount sampleCount)
  return { rowCount, sampleCount, points := pointsOf (index.map (·.value)).toArray }

/-- Samples a column of a base table, fetching at most 24 values at a time. -/
def sample (catalog : Catalog) (column : ColumnRef) : Except CatalogError ColumnProfile :=
  sampleInBatches catalog column 23

def isSampled (p : ColumnProfile) : Bool := p.points.length == divisionPoints

/-- The length of the longest run of equal points, those of NULL only if `nulls`. -/
def longestRun (nulls : Bool) (points : List Value) : Nat :=
  let runs := points.splitBy (· == ·)
  let counted := runs.filter fun run => nulls || !run.any Value.isNull
  (counted.map List.length).foldl max 0

/-- In points, the greatest share of rows that a comparison with one value keeps. -/
def estimateComparison (p : ColumnProfile) (op : Comparison) : Nat :=
  if !p.isSampled then divisionPoints
  else match op with
  | .eq => max 1 (longestRun false p.points)
  | .is => max 1 (longestRun true p.points)
  | .isNot => divisionPoints
  | .ne | .lt | .le | .gt | .ge => p.points.countP (!·.isNull)

/-- In points, the share of rows in a range. A range that is not empty counts for one point at
least: its keys may lie between two points. -/
def estimateRange (p : ColumnProfile) (range : KeyRange) : Nat :=
  if !p.isSampled then divisionPoints
  else if range.isEmpty then 0
  else max 1 (p.points.countP fun v => range.contains [v])

/-- The number of pairs of equal points, none of them NULL. -/
def matchingPoints (p q : ColumnProfile) : Nat :=
  (p.points.flatMap fun v => q.points.filter fun w => !v.isNull && v == w).length

end ColumnProfile

end JoinPlanner
