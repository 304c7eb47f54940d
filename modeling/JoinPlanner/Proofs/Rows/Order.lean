import JoinPlanner.Proofs.Rows.Basic
import JoinPlanner.Proofs.Value.Order

/-!
# Rows in order

Sort keys order rows by the values of the first key, then of the next (`Row.compareBy`). Rows in the order of keys
are in that of its first keys (`Row.Sorted.of_isPrefix`), and stay in order if each gives way to rows that extend
it, as long as it covers what the keys read (`Row.Ordered.flatMap`).
-/

namespace JoinPlanner

namespace Row

variable (call : String → List Value → Option Value)

/-- The value of an expression in a row; what the row does not cover is NULL. -/
def value (row : Row) (e : Expr) : Value := (e.evalIn (row.valuation call)).getD .null

/-- Rows by one sort key. -/
def compareOn (key : SortKey Expr) (a b : Row) : Ordering :=
  if key.ascending then compare (a.value call key.key) (b.value call key.key)
  else compare (b.value call key.key) (a.value call key.key)

/-- Rows by the first of the keys in which they differ. -/
def compareBy : List (SortKey Expr) → Row → Row → Ordering
  | [], _, _ => .eq
  | key :: rest, a, b => (compareOn call key a b).then (compareBy rest a b)

/-- No row comes before one that is less by the keys. -/
def Sorted (keys : List (SortKey Expr)) (rows : List Row) : Prop :=
  rows.Pairwise fun a b => (compareBy call keys a b).isLE = true

/-- The row has the tuples of another row. -/
def Extends (row a : Row) : Prop := ∀ t tuple, a t = some tuple → row t = some tuple

/-- The row has a tuple for every alias that the expression reads. -/
def Reads (row : Row) (e : Expr) : Prop := ∀ c ∈ e.columns, (row c.table).isSome = true

/-- Rows in the order of keys that they cover. -/
structure Ordered (keys : List (SortKey Expr)) (rows : List Row) : Prop where
  sorted : Sorted call keys rows
  reads : ∀ row ∈ rows, ∀ key ∈ keys, row.Reads key.key

instance : Std.TransOrd Value where
  eq_swap {a b} := (Value.compare_swap b a).symm
  isLE_trans {a b c} := by
    rw [Value.compare_eq_place a b, Value.compare_eq_place b c, Value.compare_eq_place a c]
    exact Std.TransCmp.isLE_trans

variable {call} {key : SortKey Expr} {keys keys' : List (SortKey Expr)} {rows rows' : List Row} {row a b c : Row}
  {e : Expr}

instance (key : SortKey Expr) : Std.TransCmp (compareOn call key) where
  eq_swap {a b} := by
    unfold compareOn
    split <;> exact Std.OrientedCmp.eq_swap
  isLE_trans {a b c} := by
    unfold compareOn
    split
    · exact Std.TransCmp.isLE_trans
    · exact fun hab hbc => Std.TransCmp.isLE_trans hbc hab

theorem transCmp_compareBy (keys : List (SortKey Expr)) : Std.TransCmp (compareBy call keys) := by
  induction keys with
  | nil => exact { eq_swap := rfl, isLE_trans := fun _ _ => rfl }
  | cons key rest ih => exact inferInstanceAs (Std.TransCmp (compareLex (compareOn call key) (compareBy call rest)))

instance (keys : List (SortKey Expr)) : Std.TransCmp (compareBy call keys) := transCmp_compareBy keys

theorem compareBy_append : compareBy call (keys ++ keys') a b =
    (compareBy call keys a b).then (compareBy call keys' a b) := by
  induction keys with
  | nil => rfl
  | cons key rest ih => rw [List.cons_append, compareBy, compareBy, ih, Ordering.then_assoc]

theorem Sorted.of_isPrefix (h : Sorted call keys' rows) (hbegins : keys <+: keys') : Sorted call keys rows := by
  obtain ⟨rest, rfl⟩ := hbegins
  refine List.Pairwise.imp (fun {a b} hle => ?_) h
  rw [compareBy_append] at hle
  exact (Ordering.isLE_then_iff_and.1 hle).1

/-- The rows of a bag can be listed in the order of any keys. -/
theorem exists_sorted (keys : List (SortKey Expr)) (rows : Multiset Row) :
    ∃ sorted : List Row, (sorted : Multiset Row) = rows ∧ Sorted call keys sorted := by
  let le (a b : Row) : Bool := (compareBy call keys a b).isLE
  refine ⟨rows.toList.mergeSort le, ?_, List.pairwise_mergeSort (fun a b c => Std.TransCmp.isLE_trans) ?_ _⟩
  · rw [Multiset.coe_eq_coe.2 (List.mergeSort_perm _ le), Multiset.coe_toList]
  · intro a b
    have hswap : compareBy call keys b a = (compareBy call keys a b).swap := Std.OrientedCmp.eq_swap
    show ((compareBy call keys a b).isLE || (compareBy call keys b a).isLE) = true
    rw [hswap]
    cases compareBy call keys a b <;> rfl

theorem extends_merge : (a.merge b).Extends a := fun t tuple h => by rw [merge, h]; rfl

theorem Extends.reads (h : row.Extends a) (hreads : a.Reads e) : row.Reads e := by
  intro c hc
  obtain ⟨tuple, htuple⟩ := Option.isSome_iff_exists.1 (hreads c hc)
  rw [h c.table tuple htuple]
  rfl

theorem Extends.value_eq (h : row.Extends a) (hreads : a.Reads e) : row.value call e = a.value call e := by
  have hcolumn : ∀ c ∈ e.columns, (row.valuation call).column c = (a.valuation call).column c := by
    intro c hc
    obtain ⟨tuple, htuple⟩ := Option.isSome_iff_exists.1 (hreads c hc)
    show (row c.table).map _ = (a c.table).map _
    rw [h c.table tuple htuple, htuple]
  have heval : e.evalIn (row.valuation call) = e.evalIn (a.valuation call) := Expr.evalIn_congr rfl hcolumn
  rw [value, value, heval]

theorem compareBy_congr {a' b' : Row} (ha : ∀ key ∈ keys, a.value call key.key = a'.value call key.key)
    (hb : ∀ key ∈ keys, b.value call key.key = b'.value call key.key) :
    compareBy call keys a b = compareBy call keys a' b' := by
  induction keys with
  | nil => rfl
  | cons key rest ih =>
    obtain ⟨hakey, harest⟩ := List.forall_mem_cons.1 ha
    obtain ⟨hbkey, hbrest⟩ := List.forall_mem_cons.1 hb
    rw [compareBy, compareBy, ih harest hbrest, compareOn, compareOn, hakey, hbkey]

namespace Ordered

theorem nil : Ordered call [] rows :=
  ⟨List.pairwise_of_forall_mem_list fun _ _ _ _ => rfl, fun _ _ _ hkey => nomatch hkey⟩

theorem sublist (h : Ordered call keys rows) (hsub : rows'.Sublist rows) : Ordered call keys rows' :=
  ⟨h.sorted.sublist hsub, fun row hrow => h.reads row (hsub.subset hrow)⟩

/-- Rows stay in order if each gives way to a group of rows that extend it. -/
theorem flatMap {groups : List (Row × List Row)} (h : Ordered call keys (groups.map (·.1)))
    (hextends : ∀ g ∈ groups, ∀ row ∈ g.2, row.Extends g.1) : Ordered call keys (groups.flatMap (·.2)) := by
  have hreads : ∀ g ∈ groups, ∀ key ∈ keys, g.1.Reads key.key := fun g hg =>
    h.reads g.1 (List.mem_map_of_mem hg)
  have hvalue : ∀ g ∈ groups, ∀ row ∈ g.2, ∀ key ∈ keys, row.value call key.key = g.1.value call key.key :=
    fun g hg row hrow key hkey => (hextends g hg row hrow).value_eq (hreads g hg key hkey)
  refine ⟨List.pairwise_flatMap.2 ⟨fun g hg => ?_, ?_⟩, fun row hrow key hkey => ?_⟩
  · -- the keys have the values of the one row that all rows of the group extend
    have hself : compareBy call keys g.1 g.1 = .eq := Std.ReflCmp.compare_self
    refine List.pairwise_of_forall_mem_list fun row hrow row' hrow' => ?_
    rw [compareBy_congr (hvalue g hg row hrow) (hvalue g hg row' hrow'), hself]
    rfl
  · refine List.Pairwise.imp_of_mem (fun {g g'} hg hg' hle row hrow row' hrow' => ?_) (List.pairwise_map.1 h.sorted)
    rw [compareBy_congr (hvalue g hg row hrow) (hvalue g' hg' row' hrow')]
    exact hle
  · obtain ⟨g, hg, hmem⟩ := List.mem_flatMap.1 hrow
    exact (hextends g hg row hmem).reads (hreads g hg key hkey)

end Ordered

end Row

end JoinPlanner
