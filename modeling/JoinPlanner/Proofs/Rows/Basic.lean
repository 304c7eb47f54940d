import JoinPlanner.Proofs.Expr.Truth
import JoinPlanner.Proofs.Graph.Flatten
import Mathlib.Data.Multiset.Bind

/-!
# Rows of plans

The meaning of a plan over given contents of the tables is a bag of rows, `Expr.rows`. A row gives a tuple
to every alias that it covers; a join merges the rows of its inputs, which cover different aliases. The
product of relations is the product of any order of them (`Database.product_perm`), and of two groups of
them the pairs of the products (`Database.product_append`).
-/

namespace JoinPlanner

abbrev Tuple := String → Value

/-- The tuples of the aliases that a row covers. -/
abbrev Row := TableName → Option Tuple

namespace Row

def empty : Row := fun _ => none

def single (name : TableName) (tuple : Tuple) : Row := fun t => if t = name then some tuple else none

/-- A tuple of NULLs for each of the relations. -/
def nulls (tables : TableSet) : Row := fun t => if tables.contains t then some fun _ => .null else none

def merge (a b : Row) : Row := fun t => (a t).or (b t)

def valuation (call : String → List Value → Option Value) (row : Row) : Valuation :=
  ⟨fun c => (row c.table).map (· c.column), call⟩

/-- Every row of one bag merged with every row of another. -/
def pairs (l r : Multiset Row) : Multiset Row := l.bind fun a => r.map a.merge

/-- A left row of an outer join merged with the right rows that it matches, or else with NULLs. -/
def extend (tables : TableSet) (matched : Row → Bool) (r : Multiset Row) (a : Row) : Multiset Row :=
  let merged := (r.map a.merge).filter (matched ·)
  if merged.card = 0 then {a.merge (nulls tables)} else merged

/-- The left outer join with right rows over some tables. -/
def leftJoin (tables : TableSet) (matched : Row → Bool) (l r : Multiset Row) : Multiset Row :=
  l.bind (extend tables matched r)

/-- The row covers these aliases and no others. -/
def Covers (row : Row) (names : List TableName) : Prop := ∀ t, (row t).isSome = true ↔ t ∈ names

end Row

/-- The contents of the base tables. -/
abbrev Database := TableName → Multiset Tuple

namespace Database

/-- The rows of an alias. -/
def scan (db : Database) (name : TableName) : Expr → Multiset Row
  | .table base => (db base).map (Row.single name)
  | _ => 0

def product (db : Database) : List (TableName × Expr) → Multiset Row
  | [] => {Row.empty}
  | (name, source) :: rest => Row.pairs (db.scan name source) (db.product rest)

end Database

namespace Expr

/-- The bag of rows of a plan over the contents of the tables. A tree that is no plan has no rows. -/
def rows (db : Database) (call : String → List Value → Option Value) : Expr → Multiset Row
  | aliased name source => db.scan name source
  | join .cartesian left right on _ | join .inner left right on _ =>
    (Row.pairs (left.rows db call) (right.rows db call)).filter fun row => on.all (holds (row.valuation call))
  | join .leftOuter left right on _ =>
    Row.leftJoin right.relations (fun row => on.all (holds (row.valuation call))) (left.rows db call)
      (right.rows db call)
  | filter (.select p _) child | filter (.guard p) child =>
    (child.rows db call).filter fun row => p.holds (row.valuation call)
  | filter (.sort _ _) child | filter .computed child => child.rows db call
  | apply (.call "single_row") [] => {Row.empty}
  | _ => 0

end Expr

namespace Row

variable {a b c : Row} {names names' : List TableName}

@[simp] theorem empty_merge : empty.merge a = a := rfl

@[simp] theorem merge_empty : a.merge empty = a := by
  funext t
  exact Option.or_none

theorem merge_assoc : (a.merge b).merge c = a.merge (b.merge c) := by
  funext t
  exact Option.or_assoc

theorem covers_empty : empty.Covers [] := by simp [Covers, empty]

theorem covers_single (name : TableName) (tuple : Tuple) : (single name tuple).Covers [name] := by
  intro t
  unfold single
  split <;> simp_all

theorem Covers.merge (ha : a.Covers names) (hb : b.Covers names') : (a.merge b).Covers (names ++ names') := by
  intro t
  rw [List.mem_append, ← ha t, ← hb t, Row.merge, Option.isSome_or, Bool.or_eq_true]

theorem Covers.eq_none (ha : a.Covers names) {t : TableName} (ht : t ∉ names) : a t = none := by
  rw [← ha t] at ht
  simpa using ht

theorem merge_left (ha : a.Covers names) {t : TableName} (ht : t ∈ names) : a.merge b t = a t :=
  Option.or_of_isSome ((ha t).2 ht)

theorem merge_right (ha : a.Covers names) {t : TableName} (ht : t ∉ names) : a.merge b t = b t := by
  rw [merge, ha.eq_none ht, Option.none_or]

theorem merge_comm (ha : a.Covers names) (hb : b.Covers names') (h : names.Disjoint names') :
    a.merge b = b.merge a := by
  funext t
  by_cases ht : t ∈ names
  · rw [merge_left ha ht, merge_right hb (h ht)]
  · rw [merge_right ha ht]
    by_cases ht' : t ∈ names'
    · rw [merge_left hb ht']
    · rw [merge_right hb ht', hb.eq_none ht', ha.eq_none ht]

variable {l l' r r' : Multiset Row}

@[simp] theorem pairs_zero : pairs 0 r = 0 := Multiset.zero_bind _

@[simp] theorem pairs_cons : pairs (a ::ₘ l) r = r.map a.merge + pairs l r := Multiset.cons_bind _ _ _

@[simp] theorem pairs_empty : pairs {empty} r = r := by
  simp [pairs, Multiset.map_congr rfl fun a _ => empty_merge (a := a)]

@[simp] theorem pairs_empty_right : pairs l {empty} = l := by
  have hrow : pairs l {empty} = l.bind fun a => {a} := Multiset.bind_congr fun a _ => by simp
  rw [hrow, Multiset.bind_singleton, Multiset.map_id']

theorem mem_pairs : c ∈ pairs l r ↔ ∃ a ∈ l, ∃ b ∈ r, a.merge b = c := by
  simp [pairs]

theorem pairs_assoc {m : Multiset Row} : pairs (pairs l m) r = pairs l (pairs m r) := by
  simp only [pairs, Multiset.bind_assoc, Multiset.bind_map, Multiset.map_bind, Multiset.map_map,
    Function.comp_def, ← merge_assoc]

theorem pairs_comm (h : ∀ a ∈ l, ∀ b ∈ r, a.merge b = b.merge a) : pairs l r = pairs r l := by
  have hswap : pairs l r = l.bind fun a => r.map fun b => b.merge a :=
    Multiset.bind_congr fun a ha => Multiset.map_congr rfl fun b hb => h a ha b hb
  rw [hswap, Multiset.bind_map_comm]
  rfl

/-- Filters of both inputs of a join are a filter of the pairs. -/
theorem pairs_filter {p q s : Row → Bool} (h : ∀ a ∈ l, ∀ b ∈ r, s (a.merge b) = (p a && q b)) :
    pairs (l.filter (p ·)) (r.filter (q ·)) = (pairs l r).filter (s ·) := by
  induction l using Multiset.induction_on with
  | empty => simp
  | cons a l ih =>
    obtain ⟨ha, hl⟩ := Multiset.forall_mem_cons.1 h
    have hrow : (r.map a.merge).filter (s ·) = if p a then (r.filter (q ·)).map a.merge else 0 := by
      rw [Multiset.filter_map]
      cases hp : p a with
      | true =>
        simp only [hp, Bool.true_and] at ha
        rw [if_pos rfl]
        exact congrArg _ (Multiset.filter_congr fun b hb => by rw [Function.comp, ha b hb])
      | false =>
        simp only [hp, Bool.false_and] at ha
        rw [if_neg (by simp), Multiset.filter_eq_nil.2, Multiset.map_zero]
        exact fun b hb => by simp [ha b hb]
    rw [pairs_cons, Multiset.filter_add, ← ih hl, hrow, Multiset.filter_cons]
    cases p a <;> simp

end Row

namespace Database

variable {db : Database} {leaves leaves' : List (TableName × Expr)}

theorem covers_of_mem_scan {name : TableName} {source : Expr} {row : Row} (h : row ∈ db.scan name source) :
    row.Covers [name] := by
  unfold scan at h
  split at h
  · obtain ⟨tuple, -, rfl⟩ := Multiset.mem_map.1 h
    exact Row.covers_single name tuple
  · simp at h

theorem covers_of_mem_product {row : Row} (h : row ∈ db.product leaves) :
    row.Covers (leaves.map (·.1)) := by
  induction leaves generalizing row with
  | nil =>
    obtain rfl := Multiset.mem_singleton.1 h
    exact Row.covers_empty
  | cons leaf rest ih =>
    obtain ⟨a, ha, b, hb, rfl⟩ := Row.mem_pairs.1 h
    exact (covers_of_mem_scan ha).merge (ih hb)

theorem product_append :
    db.product (leaves ++ leaves') = Row.pairs (db.product leaves) (db.product leaves') := by
  induction leaves with
  | nil => simp [product]
  | cons leaf rest ih => rw [List.cons_append, product, product, ih, Row.pairs_assoc]

theorem product_perm (h : leaves.Perm leaves') (hn : (leaves.map (·.1)).Nodup) :
    db.product leaves = db.product leaves' := by
  induction h with
  | nil => rfl
  | cons leaf h ih =>
    rw [List.map_cons, List.nodup_cons] at hn
    rw [product, product, ih hn.2]
  | swap leaf leaf' rest =>
    have hne : leaf'.1 ≠ leaf.1 := by
      simp only [List.map_cons, List.nodup_cons, List.mem_cons, not_or] at hn
      exact hn.1.1
    have hcomm : Row.pairs (db.scan leaf'.1 leaf'.2) (db.scan leaf.1 leaf.2) =
        Row.pairs (db.scan leaf.1 leaf.2) (db.scan leaf'.1 leaf'.2) :=
      Row.pairs_comm fun a ha b hb =>
        Row.merge_comm (covers_of_mem_scan ha) (covers_of_mem_scan hb) (by simpa using hne.symm)
    simp only [product, ← Row.pairs_assoc, hcomm]
  | trans h h' ih ih' => rw [ih hn, ih' ((h.map _).nodup_iff.1 hn)]

end Database

end JoinPlanner
