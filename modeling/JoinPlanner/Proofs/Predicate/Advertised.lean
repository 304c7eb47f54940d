import JoinPlanner.Proofs.Predicate.Posed

/-!
# Probes of access paths

A path gives the columns of its index, but the catalog is probed by the name of it. In a catalog to which only calls
have been made, all indexes are over columns of their tables (`Catalog.checked_afterCalls`), so that a probe counts
rows by the columns of the first index of the table with this name (`Catalog.probe_eq_ok`). These are the columns of
the path if the name stands for them only (`AccessContext.probe_of_finds`).
-/

namespace JoinPlanner

/-- A call that changes a catalog. -/
inductive CatalogCall
  | addTable (name : TableName) (columns : List String) (rows : Array (List Value))
  | insertTable (name : TableName) (table : Table)
  | addIndex (name : TableName) (index : IndexDef)

namespace Table

/-- The value of a row in a column by its name. -/
def columnValue (t : Table) (row : List Value) (column : String) : Value :=
  match t.columns.findIdx? (· == column) with
  | some n => cell row n
  | none => .null

/-- The number of rows whose key over the columns lies in the range. -/
def count (t : Table) (columns : List String) (range : KeyRange) : Nat :=
  t.rows.toList.countP fun row => range.contains (columns.map (t.columnValue row))

/-- Every index is over columns of the table. -/
def Checked (t : Table) : Prop := ∀ i ∈ t.indexes, ∀ column ∈ i.columns, column ∈ t.columns

end Table

namespace Catalog

/-- What a call makes of a catalog; a call that comes to an error changes nothing. -/
def after (c : Catalog) : CatalogCall → Catalog
  | .addTable name columns rows => c.put name { columns, rows }
  | .insertTable name table => (c.insert name table).toOption.getD c
  | .addIndex name index => (c.addIndex name index).toOption.getD c

/-- The catalog to which the calls have been made, and no other. -/
def afterCalls (calls : List CatalogCall) : Catalog := calls.foldl after {}

def Checked (c : Catalog) : Prop := ∀ entry ∈ c.tables, entry.2.Checked

end Catalog

namespace Table

variable {t : Table} {name : TableName} {column : String} {columns : List String}

theorem exists_position (name : TableName) (h : column ∈ t.columns) :
    ∃ n, t.position name column = .ok n ∧ ∀ row, t.columnValue row column = cell row n := by
  have hsome : (t.columns.findIdx? (· == column)).isSome = true := by
    rw [List.findIdx?_isSome, List.any_eq_true]
    exact ⟨column, h, beq_self_eq_true column⟩
  obtain ⟨n, hn⟩ := Option.isSome_iff_exists.1 hsome
  exact ⟨n, by rw [position, hn], fun row => by rw [columnValue, hn]⟩

theorem mem_of_position {n : Nat} (h : t.position name column = .ok n) : column ∈ t.columns := by
  unfold position at h
  split at h
  · next n' hn =>
    obtain ⟨hlt, hfound, -⟩ := List.findIdx?_eq_some_iff_getElem.1 hn
    exact eq_of_beq hfound ▸ List.getElem_mem hlt
  · cases h

theorem exists_positions (name : TableName) (h : ∀ column ∈ columns, column ∈ t.columns) :
    ∃ positions, columns.mapM (t.position name) = .ok positions ∧
      ∀ row, positions.map (cell row) = columns.map (t.columnValue row) := by
  induction columns with
  | nil => exact ⟨[], rfl, fun _ => rfl⟩
  | cons column columns ih =>
    obtain ⟨hcolumn, hcolumns⟩ := List.forall_mem_cons.1 h
    obtain ⟨n, hn, hcell⟩ := exists_position name hcolumn
    obtain ⟨positions, hpositions, hcells⟩ := ih hcolumns
    refine ⟨n :: positions, by rw [List.mapM_cons, hn, hpositions]; rfl, fun row => ?_⟩
    rw [List.map_cons, List.map_cons, hcells, hcell]

theorem mem_columns_of_checkIndex {i : IndexDef} (h : t.checkIndex name i = .ok ()) :
    ∀ column ∈ i.columns, column ∈ t.columns := by
  intro column hcolumn
  have hposition : discard (t.position name column) = .ok () := forM_eq_ok h column hcolumn
  cases hn : t.position name column with
  | error e => rw [hn] at hposition; cases hposition
  | ok n => exact mem_of_position hn

end Table

namespace Catalog

variable {c c' : Catalog} {name : TableName} {t : Table} {i : IndexDef}

theorem Checked.put (hc : c.Checked) (ht : t.Checked) : (c.put name t).Checked :=
  List.forall_mem_cons.2 ⟨ht, fun entry hentry => hc entry (List.mem_filter.1 hentry).1⟩

theorem Checked.insert (hc : c.Checked) (h : c.insert name t = .ok c') : c'.Checked := by
  obtain ⟨_, hindexes, h⟩ := bind_eq_ok.1 h
  cases h
  exact hc.put fun i hi => Table.mem_columns_of_checkIndex (forM_eq_ok hindexes i hi)

theorem Checked.addIndex (hc : c.Checked) (h : c.addIndex name i = .ok c') : c'.Checked := by
  obtain ⟨t, ht, h⟩ := bind_eq_ok.1 h
  obtain ⟨_, hi, h⟩ := bind_eq_ok.1 h
  cases h
  refine hc.put (List.forall_mem_append.2 ⟨hc _ (mem_tables_of_table ht), ?_⟩)
  exact List.forall_mem_singleton.2 (Table.mem_columns_of_checkIndex hi)

theorem Checked.getD {x : Except CatalogError Catalog} (hc : c.Checked) (h : ∀ c', x = .ok c' → c'.Checked) :
    (x.toOption.getD c).Checked := by
  cases x with
  | error e => exact hc
  | ok c' => exact h c' rfl

theorem Checked.after (hc : c.Checked) (call : CatalogCall) : (c.after call).Checked := by
  cases call with
  | addTable name columns rows => exact hc.put nofun
  | insertTable name table => exact hc.getD fun _ => hc.insert
  | addIndex name index => exact hc.getD fun _ => hc.addIndex

theorem checked_afterCalls (calls : List CatalogCall) : (afterCalls calls).Checked := by
  suffices h : ∀ c : Catalog, c.Checked → (calls.foldl Catalog.after c).Checked from h {} nofun
  induction calls with
  | nil => exact fun c hc => hc
  | cons call calls ih => exact fun c hc => ih _ (hc.after call)

theorem foldl_count {α : Type} (p : α → Bool) (as : List α) (n : Nat) :
    as.foldl (fun n a => if p a then n + 1 else n) n = n + as.countP p := by
  induction as generalizing n with
  | nil => rfl
  | cons a as ih =>
    rw [List.foldl_cons, ih, List.countP_cons]
    split <;> omega

/-- A probe counts rows by the columns of the first index with the name. -/
theorem probe_eq_ok (hc : c.Checked) (ht : c.table name = .ok t) {index : String}
    (hi : t.indexes.find? (·.name == index) = some i) (range : KeyRange) :
    c.probe name index range = .ok (t.count i.columns range) := by
  have hcolumns := hc _ (mem_tables_of_table ht) i (List.mem_of_find?_eq_some hi)
  obtain ⟨positions, hpositions, hkeys⟩ := Table.exists_positions name hcolumns
  refine bind_eq_ok.2 ⟨t, ht, ?_⟩
  rw [hi]
  refine bind_eq_ok.2 ⟨positions, hpositions, congrArg Except.ok ?_⟩
  simp only [hkeys]
  rw [← Array.foldl_toList, foldl_count, Nat.zero_add]
  rfl

end Catalog

namespace AccessContext

/-- The paths that are found over a catalog, for a predicate that is marked or for an order. -/
inductive Finds (m : AccessContext) (path : AccessPath) : Prop
  | mark {κ : Type} [CostNumber κ] (p : Predicate) (s : Statistics κ)
      (mem : path ∈ ((m.mark.run.run p).run s).1.2.paths) : Finds m path
  | order (keys : List (SortKey Expr)) (found : m.orderPath keys = .ok (some path)) : Finds m path

variable {m : AccessContext} {path : AccessPath}

theorem Finds.exists_serves (h : m.Finds path) : ∃ i, m.Serves path.relation path i := by
  cases h with
  | mark p s mem => exact ((m.marks_mark p s).paths path mem).exists_serves
  | order keys found =>
    obtain ⟨i, hserves, -⟩ := exists_of_orderPath found
    exact ⟨i, hserves⟩

/-- Over any catalog that calls make, a probe of a path that is found counts rows by the columns of the first index
with its name, which are the columns of the path unless there is another index with this name. -/
theorem probe_of_finds (calls : List CatalogCall) {baseTables : List (TableName × TableName)} {sampleFacts : Bool}
    (h : Finds ⟨.afterCalls calls, baseTables, sampleFacts⟩ path) (range : KeyRange) :
    ∃ t i, (Catalog.afterCalls calls).table path.table = .ok t ∧
      t.indexes.find? (·.name == path.index) = some i ∧
      (Catalog.afterCalls calls).probe path.table path.index range = .ok (t.count i.columns range) ∧
      ((∀ j ∈ t.indexes, j.name = path.index → j.columns = path.columns) →
        (Catalog.afterCalls calls).probe path.table path.index range = .ok (t.count path.columns range)) := by
  obtain ⟨listed, hserves⟩ := h.exists_serves
  obtain ⟨t, ht, hlisted⟩ := hserves.exists_table
  obtain ⟨i, hi⟩ : ∃ i, t.indexes.find? (·.name == path.index) = some i := by
    rw [← Option.isSome_iff_exists, List.find?_isSome]
    exact ⟨listed, hlisted, beq_iff_eq.2 hserves.index.symm⟩
  have hprobe := Catalog.probe_eq_ok (Catalog.checked_afterCalls calls) ht hi range
  refine ⟨t, i, ht, hi, hprobe, fun hone => ?_⟩
  have hname := List.find?_some hi
  rw [← hone i (List.mem_of_find?_eq_some hi) (eq_of_beq hname)]
  exact hprobe

/-- A table of two rows with an index on `x` and one on `y` of the same name. -/
def sameName : List CatalogCall :=
  let t : TableName := ⟨none, "t"⟩
  [.addTable t ["x", "y"] #[[.int 1, .int 0], [.int 1, .int 1]],
    .addIndex t (.ofColumns "i" ["x"]), .addIndex t (.ofColumns "i" ["y"])]

def markSameName : AccessContext := ⟨.afterCalls sameName, [(⟨none, "a"⟩, ⟨none, "t"⟩)], false⟩

/-- `a.y = 1`. -/
def pointOfSecond : Predicate := .ofCondition (.inRange ⟨⟨none, "a"⟩, "y"⟩ (.comparing .eq [.int 1])) ∅

/-- The path is of the second index; a probe counts by the first, and finds both rows where there is one. -/
theorem probe_of_finds_sameName :
    ∃ path ∈ ((markSameName.mark.run.run pointOfSecond).run (default : Statistics Float)).1.2.paths,
      path.columns = ["y"] ∧ ∃ t, (Catalog.afterCalls sameName).table path.table = .ok t ∧
        (Catalog.afterCalls sameName).probe path.table path.index (.comparing .eq [.int 1]) =
          .ok (t.count ["x"] (.comparing .eq [.int 1])) ∧
        t.count ["x"] (.comparing .eq [.int 1]) = 2 ∧ t.count path.columns (.comparing .eq [.int 1]) = 1 := by
  have hpaths : ((markSameName.mark.run.run pointOfSecond).run (default : Statistics Float)).1.2.paths.any (fun path =>
      path.columns = ["y"] ∧ path.index = "i" ∧ path.table = ⟨none, "t"⟩) = true := by
    decide +kernel
  obtain ⟨path, hpath, hfound⟩ := List.any_eq_true.1 hpaths
  obtain ⟨hcolumns, hindex, htable⟩ := of_decide_eq_true hfound
  obtain ⟨t, i, ht, hi, hprobe, -⟩ :=
    probe_of_finds sameName (.mark pointOfSecond default hpath) (.comparing .eq [.int 1])
  rw [htable] at ht
  cases ht
  rw [hindex] at hi
  cases hi
  refine ⟨path, hpath, hcolumns, _, htable ▸ rfl, hprobe, ?_⟩
  rw [hcolumns]
  decide +kernel

end AccessContext

end JoinPlanner
