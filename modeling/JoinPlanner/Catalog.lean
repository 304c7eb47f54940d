import JoinPlanner.Error

/-!
# The catalog

Tables with their rows and indexes. The planner reads row counts, indexes, the number of rows that
an index holds in a range, and values of a column at given positions; it never writes.
-/

namespace JoinPlanner

structure IndexColumn where
  column : String
  ascending : Bool := true
deriving BEq, DecidableEq, Inhabited, Repr

structure IndexDef where
  name : String
  collation : List IndexColumn
deriving BEq, DecidableEq, Inhabited, Repr

namespace IndexDef

/-- An ascending index over columns in the given order. -/
def ofColumns (name : String) (columns : List String) : IndexDef :=
  ⟨name, columns.map fun c => { column := c }⟩

def columns (i : IndexDef) : List String := i.collation.map (·.column)

def allAscending (i : IndexDef) : Bool := i.collation.all (·.ascending)

def leadingColumn? (i : IndexDef) : Option String := i.collation.head?.map (·.column)

end IndexDef

/-- A table in memory; a row that is too short ends in NULLs. -/
structure Table where
  columns : List String
  rows : Array (List Value) := #[]
  indexes : List IndexDef := []
deriving Inhabited

namespace Table

/-- The position of a column; `name` is the table's name in the error. -/
def position (t : Table) (name : TableName) (column : String) : Except CatalogError Nat :=
  match t.columns.findIdx? (· == column) with
  | some i => .ok i
  | none => .error (.unknownColumn name column)

def cell (row : List Value) (column : Nat) : Value := (row[column]?).getD .null

def value (t : Table) (row column : Nat) : Value := cell ((t.rows[row]?).getD []) column

def checkIndex (t : Table) (name : TableName) (index : IndexDef) : Except CatalogError Unit :=
  index.columns.forM fun c => discard (t.position name c)

end Table

structure Catalog where
  tables : List (TableName × Table) := []
deriving Inhabited

namespace Catalog

def table (c : Catalog) (name : TableName) : Except CatalogError Table :=
  match c.tables.lookup name with
  | some t => .ok t
  | none => .error (.unknownTable name)

def put (c : Catalog) (name : TableName) (t : Table) : Catalog :=
  ⟨(name, t) :: c.tables.filter fun entry => entry.1 != name⟩

def insert (c : Catalog) (name : TableName) (t : Table) : Except CatalogError Catalog := do
  t.indexes.forM (t.checkIndex name)
  return c.put name t

def addIndex (c : Catalog) (name : TableName) (index : IndexDef) : Except CatalogError Catalog := do
  let t ← c.table name
  t.checkIndex name index
  return c.put name { t with indexes := t.indexes ++ [index] }

def rowCount (c : Catalog) (name : TableName) : Except CatalogError Nat :=
  return (← c.table name).rows.size

def indexes (c : Catalog) (name : TableName) : Except CatalogError (List IndexDef) :=
  return (← c.table name).indexes

/-- The number of rows whose key in the index lies in the range. -/
def probe (c : Catalog) (name : TableName) (index : String) (range : KeyRange) :
    Except CatalogError Nat := do
  let t ← c.table name
  let some found := t.indexes.find? (·.name == index) | .error (.unknownIndex name index)
  let positions ← found.columns.mapM (t.position name)
  return t.rows.foldl (fun n row =>
    if range.contains (positions.map (Table.cell row)) then n + 1 else n) 0

def fetch (c : Catalog) (name : TableName) (column : String) (rows : List Nat) :
    Except CatalogError (List Value) := do
  let t ← c.table name
  let position ← t.position name column
  return rows.map fun row => t.value row position

end Catalog

end JoinPlanner
