import JoinPlanner.Predicate.AccessPath
import JoinPlanner.Proofs.Lists

/-!
# Where access paths come from

Every access path reads an index of the base table of its relation (`AccessContext.Serves`). What it is for is
said once for each way to find one: the range of a filter's path is a point of all columns of the index or a
range of its first column (`AccessContext.exists_of_filterPaths`), a join's path begins with a column of the
relation that the join equates (`AccessContext.exists_of_joinPaths`), and the path of an order with its keys
(`AccessContext.exists_of_orderPath`).
-/

namespace JoinPlanner

theorem Catalog.mem_tables_of_table {catalog : Catalog} {name : TableName} {t : Table}
    (h : catalog.table name = .ok t) : (name, t) ∈ catalog.tables := by
  unfold Catalog.table at h
  split at h
  · next hlookup =>
    cases h
    obtain ⟨before, after, heq, -⟩ := List.lookup_eq_some_iff.1 hlookup
    rw [heq]
    exact List.mem_append_right _ List.mem_cons_self
  · cases h

theorem IndexDef.head?_columns (i : IndexDef) : i.columns.head? = i.leadingColumn? := List.head?_map

namespace AccessContext

variable {m : AccessContext} {name : TableName} {path : AccessPath} {condition : Expr} {paths : List AccessPath}

/-- `m.Serves name path i`: the path reads the relation through the index `i` of its base table. -/
structure Serves (m : AccessContext) (name : TableName) (path : AccessPath) (i : IndexDef) : Prop where
  base : m.baseTable name = .ok path.table
  relation : path.relation = name
  listed : ∃ indexes, m.catalog.indexes path.table = .ok indexes ∧ i ∈ indexes
  index : path.index = i.name
  columns : path.columns = i.columns

theorem serves_of_servingIndexes {table : TableName} {indexes : List IndexDef} {i : IndexDef}
    (h : m.servingIndexes name = .ok (table, indexes)) (hi : i ∈ indexes) (range : Option KeyRange) :
    m.Serves name (AccessContext.path table name i range) i := by
  obtain ⟨base, hbase, h⟩ := bind_eq_ok.1 h
  obtain ⟨found, hfound, h⟩ := bind_eq_ok.1 h
  cases h
  have hlisted : m.catalog.indexes table = .ok found := by
    change (m.catalog.indexes table).mapError PlanError.catalog = .ok found at hfound
    cases hindexes : m.catalog.indexes table with
    | error e => rw [hindexes] at hfound; cases hfound
    | ok all => rw [hindexes] at hfound; cases hfound; rfl
  exact ⟨hbase, rfl, ⟨found, hlisted, (List.mem_filter.1 hi).1⟩, rfl, rfl⟩

theorem Serves.exists_table {i : IndexDef} (h : m.Serves name path i) :
    ∃ t, m.catalog.table path.table = .ok t ∧ i ∈ t.indexes := by
  obtain ⟨indexes, hindexes, hi⟩ := h.listed
  obtain ⟨t, ht, hindexes⟩ := bind_eq_ok.1 hindexes
  cases hindexes
  exact ⟨t, ht, hi⟩

theorem of_keyOf? {i : IndexDef} {values : List (String × Value)} {key : Key} (h : i.keyOf? values = some key) :
    i.columns.length = values.length ∧ List.Forall₂ (fun c v => values.lookup c = some v) i.columns key := by
  unfold IndexDef.keyOf? at h
  split at h
  · next hlength => exact ⟨hlength, mapM_eq_some_iff.1 h⟩
  · cases h

/-- The range in which a filter probes an index: the point that its terms make of all columns of the index, or the
range of a term on the first column. -/
inductive Probes (terms : List Expr) (i : IndexDef) : KeyRange → Prop
  | point {values : List (String × Value)} {key : Key} (points : pointValues terms = some values)
      (many : 1 < values.length) (found : i.keyOf? values = some key) : Probes terms i (.comparing .eq key)
  | leading {term : Expr} {c : ColumnRef} {range : KeyRange} (hterm : term ∈ terms)
      (ranges : term.rangeTerm? = some (c, range)) (leads : i.leadingColumn? = some c.column) : Probes terms i range

theorem mem_pointPaths {table : TableName} {indexes : List IndexDef} {terms : List Expr}
    (h : path ∈ pointPaths table name indexes terms) :
    ∃ i ∈ indexes, ∃ range, Probes terms i range ∧ path = AccessContext.path table name i (some range) := by
  unfold pointPaths at h
  split at h
  · next values hvalues =>
    split at h
    · next many =>
      obtain ⟨i, hi, h⟩ := List.mem_filterMap.1 h
      obtain ⟨key, hkey, rfl⟩ := Option.map_eq_some_iff.1 h
      exact ⟨i, hi, _, .point hvalues many hkey, rfl⟩
    · cases h
  · cases h

theorem mem_rangePaths {table : TableName} {indexes : List IndexDef} {term : Expr} {found : List AccessPath}
    (h : path ∈ rangePaths table name indexes found term) : path ∈ found ∨ ∃ i ∈ indexes, ∃ c range,
      term.rangeTerm? = some (c, range) ∧ i.leadingColumn? = some c.column ∧
        path = AccessContext.path table name i (some range) := by
  unfold rangePaths at h
  split at h
  · next c range hrange =>
    induction indexes generalizing found with
    | nil => exact .inl h
    | cons i indexes ih =>
      rcases ih h with h | ⟨j, hj, hpath⟩
      · dsimp only at h
        split at h
        · next hleads =>
          rcases List.mem_append.1 h with h | h
          · exact .inl h
          · rw [Bool.and_eq_true, beq_iff_eq] at hleads
            exact .inr ⟨i, .head _, c, range, hrange, hleads.1, List.mem_singleton.1 h⟩
        · exact .inl h
      · exact .inr ⟨j, .tail _ hj, hpath⟩
  · exact .inl h

theorem mem_foldl_rangePaths {table : TableName} {indexes : List IndexDef} {terms : List Expr}
    {found : List AccessPath} (h : path ∈ terms.foldl (rangePaths table name indexes) found) : path ∈ found ∨
      ∃ i ∈ indexes, ∃ range, Probes terms i range ∧ path = AccessContext.path table name i (some range) := by
  suffices h : path ∈ found ∨ ∃ term ∈ terms, ∃ found, path ∈ rangePaths table name indexes found term ∧ path ∉ found by
    refine h.imp_right fun ⟨term, hterm, before, hpath, hnew⟩ => ?_
    obtain ⟨i, hi, c, range, hrange, hleads, rfl⟩ := (mem_rangePaths hpath).resolve_left hnew
    exact ⟨i, hi, range, .leading hterm hrange hleads, rfl⟩
  induction terms generalizing found with
  | nil => exact .inl h
  | cons term terms ih =>
    rcases ih h with h | ⟨t, ht, hpath⟩
    · by_cases hfound : path ∈ found
      · exact .inl hfound
      · exact .inr ⟨term, .head _, found, h, hfound⟩
    · exact .inr ⟨t, .tail _ ht, hpath⟩

theorem exists_of_filterPaths (h : m.filterPaths name condition = .ok paths) (hpath : path ∈ paths) :
    ∃ i range, m.Serves name path i ∧ path.range = some range ∧ Probes condition.conjuncts i range := by
  obtain ⟨⟨table, indexes⟩, hserving, h⟩ := bind_eq_ok.1 h
  cases h
  obtain ⟨i, hi, range, hprobes, rfl⟩ := (mem_foldl_rangePaths hpath).elim mem_pointPaths id
  exact ⟨i, range, serves_of_servingIndexes hserving hi _, rfl, hprobes⟩

theorem exists_of_joinPaths {columns : List String} (h : m.joinPaths name columns = .ok paths)
    (hpath : path ∈ paths) :
    ∃ i, m.Serves name path i ∧ path.range = none ∧ ∃ c ∈ columns, i.leadingColumn? = some c := by
  unfold joinPaths at h
  split at h
  · cases h
    cases hpath
  · obtain ⟨⟨table, indexes⟩, hserving, h⟩ := bind_eq_ok.1 h
    cases h
    obtain ⟨i, hi, rfl⟩ := List.mem_map.1 hpath
    obtain ⟨hi, hleads⟩ := List.mem_filter.1 hi
    obtain ⟨c, hc, hmem⟩ := Option.any_eq_true _ _ |>.1 hleads
    exact ⟨i, serves_of_servingIndexes hserving hi _, rfl, c, by simpa using hmem, hc⟩

theorem mem_columnsOf {pairs : List (ColumnRef × ColumnRef)} {column : String} :
    column ∈ columnsOf name pairs ↔ ∃ l r, (l, r) ∈ pairs ∧ (l = ⟨name, column⟩ ∨ r = ⟨name, column⟩) := by
  have hpick (c : ColumnRef) : (if c.table = name then some c.column else none) = some column ↔ c = ⟨name, column⟩ := by
    cases c
    simp
  simp only [columnsOf, List.mem_filterMap, List.mem_flatMap, hpick, exists_eq_right]
  constructor
  · rintro ⟨⟨l, r⟩, hpair, hmem⟩
    exact ⟨l, r, hpair, by simpa [eq_comm] using hmem⟩
  · rintro ⟨l, r, hpair, hmem⟩
    exact ⟨(l, r), hpair, by simpa [eq_comm] using hmem⟩

/-- An ascending order on one relation is that of the columns of its keys. -/
theorem eq_map_of_commonAlias? {order : List (SortKey Expr)} (h : SortKey.commonAlias? order = some name)
    (hascending : ¬order.any (!·.ascending) = true) :
    order = (order.filterMap fun k => k.key.column?.map (·.column)).map fun c => ⟨.column ⟨name, c⟩, true⟩ := by
  have hall : ∀ k ∈ order, k.key.column?.map (·.table) = some name ∧ k.ascending = true := by
    obtain ⟨first, -, h⟩ := Option.bind_eq_some_iff.1 h
    obtain ⟨c, -, h⟩ := Option.bind_eq_some_iff.1 h
    split at h
    · next hkeys =>
      cases h
      simp only [List.any_eq_true, Bool.not_eq_true', not_exists, not_and, Bool.not_eq_false] at hascending
      exact fun k hk => ⟨eq_of_beq (List.all_eq_true.1 hkeys k hk), hascending k hk⟩
    · cases h
  clear h hascending
  induction order with
  | nil => rfl
  | cons k order ih =>
    obtain ⟨⟨htable, hascending⟩, hrest⟩ := List.forall_mem_cons.1 hall
    obtain ⟨key, ascending⟩ := k
    obtain ⟨⟨t, column⟩, hcolumn, rfl⟩ := Option.map_eq_some_iff.1 htable
    cases key <;> cases hcolumn
    obtain rfl : ascending = true := hascending
    exact congrArg (_ :: ·) (ih hrest)

theorem exists_of_orderPath {order : List (SortKey Expr)} (h : m.orderPath order = .ok (some path)) :
    ∃ i, m.Serves path.relation path i ∧ path.range = none ∧
      ∃ columns, columns <+: path.columns ∧ order = columns.map fun c => ⟨.column ⟨path.relation, c⟩, true⟩ := by
  unfold orderPath at h
  split at h
  · next name hname =>
    split at h
    · cases h
    · next hascending =>
      obtain ⟨⟨table, indexes⟩, hserving, h⟩ := bind_eq_ok.1 h
      obtain ⟨i, hfind, rfl⟩ := Option.map_eq_some_iff.1 (Except.ok.inj h)
      have hi : i ∈ indexes := List.mem_of_find?_eq_some hfind
      have hbegins := List.find?_some hfind
      refine ⟨i, serves_of_servingIndexes hserving hi _, rfl, _, List.isPrefixOf_iff_prefix.1 hbegins, ?_⟩
      exact eq_map_of_commonAlias? hname hascending
  · cases h

/-- A path that is found for a condition: for it as a filter of its only relation, or as a join for one of its
relations. -/
inductive Offers (m : AccessContext) (condition : Expr) (path : AccessPath) : Prop
  | filter {name : TableName} {paths : List AccessPath} (only : condition.tables.toList = [name])
      (found : m.filterPaths name condition = .ok paths) (mem : path ∈ paths)
  | join {name : TableName} {paths : List AccessPath} (reads : name ∈ condition.tables)
      (found : m.joinPaths name (columnsOf name condition.columnPairs) = .ok paths) (mem : path ∈ paths)

/-- Every path that is found is one of an index of the base table of its relation. -/
theorem Offers.exists_serves (h : m.Offers condition path) : ∃ i, m.Serves path.relation path i := by
  cases h with
  | filter _ found mem =>
    obtain ⟨i, -, hserves, -⟩ := exists_of_filterPaths found mem
    exact ⟨i, hserves.relation ▸ hserves⟩
  | join _ found mem =>
    obtain ⟨i, hserves, -⟩ := exists_of_joinPaths found mem
    exact ⟨i, hserves.relation ▸ hserves⟩

end AccessContext

end JoinPlanner
