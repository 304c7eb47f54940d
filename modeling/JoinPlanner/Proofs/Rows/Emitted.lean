import JoinPlanner.Expr.Order
import JoinPlanner.Proofs.Rows.Order

/-!
# The order in which plans emit rows

A plan has a bag of rows, and emits them one after another: an alias in any order, an index in that of its columns,
a join along the rows of its left input (`Expr.Emits`). A plan without a sort emits rows in its natural order
(`Expr.Emits.ordered`), and so does a sort, whose rows come in the order of its keys (`Expr.Emits.sorted_sort`).
-/

namespace JoinPlanner

/-- A natural order as sort keys. -/
def OrderKey.toSort (k : OrderKey) : SortKey Expr := ⟨.column k.key, k.ascending⟩

/-- The columns of an index are sort keys. -/
def AccessPath.sortKeys (path : AccessPath) : List (SortKey Expr) :=
  path.columns.map fun c => ⟨.column ⟨path.relation, c⟩, true⟩

namespace Expr

/-- No part of a plan is a sort. -/
def Unsorted : Expr → Prop
  | join _ left right _ _ => left.Unsorted ∧ right.Unsorted
  | filter (.sort _ _) _ => False
  | filter _ child => child.Unsorted
  | _ => True

/-- The lists of rows that a plan may emit over the contents of the tables. What a join makes of a row of its left
input is a group of rows that extend it, of which there may be none. -/
inductive Emits (db : Database) (call : String → List Value → Option Value) : Expr → List Row → Prop
  | aliased {name source} {rows : List Row} (scanned : ↑rows = db.scan name source) :
    Emits db call (aliased name source) rows
  | indexed {p path child} {rows : List Row}
      (kept : ↑rows = (db.scan path.relation (.table path.table)).filter fun row => p.holds (row.valuation call))
      (sorted : Row.Sorted call path.sortKeys rows) : Emits db call (filter (.select p (some path)) child) rows
  | select {p child rows} (h : Emits db call child rows) :
    Emits db call (filter (.select p none) child) (rows.filter fun row => p.holds (row.valuation call))
  | guard {p child rows} (h : Emits db call child rows) :
    Emits db call (filter (.guard p) child) (rows.filter fun row => p.holds (row.valuation call))
  | sort {keys path child rows rows'} (h : Emits db call child rows) (perm : rows'.Perm rows)
      (sorted : Row.Sorted call keys rows') : Emits db call (filter (.sort keys path) child) rows'
  | computed {child rows} (h : Emits db call child rows) : Emits db call (filter .computed child) rows
  | aggregate {groupBy child rows rows'} (h : Emits db call child rows) (sub : rows'.Sublist rows) :
    Emits db call (filter (.aggregate groupBy) child) rows'
  | join {kind left right on hints} {groups : List (Row × List Row)} (h : Emits db call left (groups.map (·.1)))
      (extend : ∀ g ∈ groups, ∀ row ∈ g.2, row.Extends g.1) :
    Emits db call (join kind left right on hints) (groups.flatMap (·.2))
  | singleRow : Emits db call (apply (.call "single_row") []) [Row.empty]

end Expr

namespace OrderKey

theorem eq_toSort_iff {k : OrderKey} {r : SortKey Expr} :
    r = k.toSort ↔ r.ascending = k.ascending ∧ r.key.column? = some k.key := by
  obtain ⟨e, ascending⟩ := r
  constructor
  · rintro ⟨⟩
    exact ⟨rfl, rfl⟩
  · rintro ⟨rfl, hcolumn⟩
    cases e <;> cases hcolumn
    rfl

theorem satisfies_iff {provided : List OrderKey} {required : List (SortKey Expr)} :
    satisfies provided required = true ↔ required <+: provided.map toSort := by
  induction provided, required using satisfies.induct with
  | case1 provided => simp [satisfies]
  | case2 r required => simp [satisfies]
  | case3 p provided r required ih =>
    rw [satisfies, List.map_cons, List.cons_prefix_cons, eq_toSort_iff, Bool.and_eq_true, Bool.and_eq_true, ih,
      beq_iff_eq, beq_iff_eq]

theorem leadingColumns_isPrefix (keys : List (SortKey Expr)) : (Expr.leadingColumns keys).map toSort <+: keys := by
  induction keys using Expr.leadingColumns.induct with
  | case1 c ascending rest ih => exact (List.prefix_cons_inj _).2 ih
  | case2 keys hkeys =>
    rw [Expr.leadingColumns.eq_2 keys hkeys]
    exact List.nil_prefix

end OrderKey

theorem AccessPath.naturalOrder_indexed {path : AccessPath} {p child : Expr} :
    (Expr.filter (.select p (some path)) child).naturalOrder.map OrderKey.toSort = path.sortKeys := by
  rw [Expr.naturalOrder, List.map_map]
  rfl

namespace Expr

variable {db : Database} {call : String → List Value → Option Value} {e child : Expr} {rows : List Row}
  {keys : List (SortKey Expr)} {path : Option AccessPath}

/-- The columns of a natural order are those of an index, and every row that comes through it covers their relation;
so does whatever the joins above it make of the row. -/
theorem Emits.ordered (h : e.Emits db call rows) (hunsorted : e.Unsorted) :
    Row.Ordered call (e.naturalOrder.map OrderKey.toSort) rows := by
  induction h with
  | aliased scanned => exact .nil
  | @indexed p path child rows kept sorted =>
    rw [AccessPath.naturalOrder_indexed]
    refine ⟨sorted, fun row hrow key hkey => ?_⟩
    obtain ⟨column, -, rfl⟩ := List.mem_map.1 hkey
    rw [← Multiset.mem_coe, kept] at hrow
    have hcovers := Database.covers_of_mem_scan (Multiset.mem_of_mem_filter hrow)
    intro c hc
    obtain rfl := List.mem_singleton.1 hc
    exact (hcovers _).2 (.head _)
  | select h ih => exact (ih hunsorted).sublist List.filter_sublist
  | guard h ih => exact (ih hunsorted).sublist List.filter_sublist
  | sort h perm sorted ih => exact hunsorted.elim
  | computed h ih => exact ih hunsorted
  | aggregate h sub ih => exact (ih hunsorted).sublist sub
  | join h extend ih => exact (ih hunsorted.1).flatMap extend
  | singleRow => exact .nil

theorem Emits.sorted_sort (h : (filter (.sort keys path) child).Emits db call rows) :
    Row.Sorted call keys rows := by
  cases h with
  | sort h perm sorted => exact sorted

/-- A join makes rows that extend a left row of every left row. -/
theorem exists_rows_join (db : Database) (call : String → List Value → Option Value) (kind : JoinKind)
    (left right : Expr) (on : Option Expr) (hints : JoinHints) : ∃ group : Row → Multiset Row,
    (∀ a, ∀ row ∈ group a, row.Extends a) ∧
      (join kind left right on hints).rows db call = (left.rows db call).bind group := by
  have hmerged : ∀ a : Row, ∀ row ∈ ((right.rows db call).map a.merge).filter fun row =>
      on.all (holds (row.valuation call)), row.Extends a := by
    intro a row hrow
    obtain ⟨b, -, rfl⟩ := Multiset.mem_map.1 (Multiset.mem_of_mem_filter hrow)
    exact Row.extends_merge
  cases kind with
  | cartesian => exact ⟨_, hmerged, Multiset.filter_bind ..⟩
  | inner => exact ⟨_, hmerged, Multiset.filter_bind ..⟩
  | leftOuter =>
    refine ⟨_, fun a row hrow => ?_, rfl⟩
    unfold Row.extend at hrow
    dsimp only at hrow
    split at hrow
    · rw [Multiset.mem_singleton.1 hrow]
      exact Row.extends_merge
    · exact hmerged a row hrow
  | _ => exact ⟨fun _ => 0, fun _ _ hrow => absurd hrow (Multiset.notMem_zero _), (Multiset.bind_zero _).symm⟩

/-- Some way to emit a plan emits all its rows. -/
def Emitted (db : Database) (call : String → List Value → Option Value) (e : Expr) : Prop :=
  ∃ rows, e.Emits db call rows ∧ ↑rows = e.rows db call

theorem emitted_aliased {name : TableName} {source : Expr} : (aliased name source).Emitted db call :=
  ⟨_, .aliased (Multiset.coe_toList _), Multiset.coe_toList _⟩

theorem emitted_indexed {x : AccessPath} {p : Expr} :
    (filter (.select p (some x)) (relation x.relation x.table)).Emitted db call := by
  obtain ⟨rows, hrows, hsorted⟩ := Row.exists_sorted x.sortKeys
    ((db.scan x.relation (.table x.table)).filter fun row => p.holds (row.valuation call))
  exact ⟨rows, .indexed hrows hsorted, hrows⟩

namespace Emitted

theorem coe_filter {p : Row → Bool} {bag : Multiset Row} (hrows : ↑rows = bag) :
    ↑(rows.filter p) = bag.filter (p ·) := by
  rw [← hrows, Multiset.filter_coe]
  simp only [Bool.decide_eq_true]

theorem select {p : Expr} (h : child.Emitted db call) : (filter (.select p none) child).Emitted db call := by
  obtain ⟨rows, hemits, hrows⟩ := h
  exact ⟨_, .select hemits, coe_filter hrows⟩

theorem guard {p : Expr} (h : child.Emitted db call) : (filter (.guard p) child).Emitted db call := by
  obtain ⟨rows, hemits, hrows⟩ := h
  exact ⟨_, .guard hemits, coe_filter hrows⟩

theorem computed (h : child.Emitted db call) : (filter .computed child).Emitted db call := by
  obtain ⟨rows, hemits, hrows⟩ := h
  exact ⟨rows, .computed hemits, hrows⟩

theorem sort (h : child.Emitted db call) : (filter (.sort keys path) child).Emitted db call := by
  obtain ⟨rows, hemits, hrows⟩ := h
  obtain ⟨rows', hperm, hsorted⟩ := Row.exists_sorted keys (rows : Multiset Row)
  exact ⟨rows', .sort hemits (Multiset.coe_eq_coe.1 hperm) hsorted, hperm.trans hrows⟩

theorem join {left right : Expr} {kind : JoinKind} {on : Option Expr} {hints : JoinHints}
    (h : left.Emitted db call) : (join kind left right on hints).Emitted db call := by
  obtain ⟨rows, hemits, hrows⟩ := h
  obtain ⟨group, hextends, hjoin⟩ := exists_rows_join db call kind left right on hints
  let groups : List (Row × List Row) := rows.map fun a => (a, (group a).toList)
  have hleft : groups.map (·.1) = rows := by rw [List.map_map]; exact List.map_id rows
  refine ⟨groups.flatMap (·.2), .join (hleft.symm ▸ hemits) fun g hg row hrow => ?_, ?_⟩
  · obtain ⟨a, -, rfl⟩ := List.mem_map.1 hg
    exact hextends a row (Multiset.mem_toList.1 hrow)
  · rw [hjoin, ← hrows, List.flatMap_map, ← Multiset.coe_bind]
    exact Multiset.bind_congr fun a _ => (group a).coe_toList

end Emitted

/-- Rows of the plan come in its natural order, whichever way they are emitted. -/
structure Delivers (db : Database) (call : String → List Value → Option Value) (e : Expr) : Prop where
  emitted : e.Emitted db call
  sorted : ∀ rows, e.Emits db call rows → Row.Sorted call (e.naturalOrder.map OrderKey.toSort) rows

theorem Emitted.delivers (h : e.Emitted db call) (hunsorted : e.Unsorted) : e.Delivers db call :=
  ⟨h, fun _ hemits => (hemits.ordered hunsorted).sorted⟩

theorem Emitted.delivers_sort (h : child.Emitted db call) : (filter (.sort keys path) child).Delivers db call :=
  ⟨h.sort, fun _ hemits => hemits.sorted_sort.of_isPrefix (OrderKey.leadingColumns_isPrefix keys)⟩

end Expr

end JoinPlanner
