import JoinPlanner.Graph
import JoinPlanner.Proofs.SortedSet
import Mathlib.Algebra.Order.Group.Multiset
import Mathlib.Tactic.Abel

/-!
# Flattening in rules

`JoinGraph.Flattens` gives the trees that `ofTree` accepts, and their graphs, by rules: one for a base
table, one for inner and Cartesian joins, one for both outer joins. The relations and the conditions of
a tree are those of its graph (`Flattens.leaves_perm`, `Flattens.conditions_perm`), and a tree whose
conditions read only what is below their joins gives a graph of which this is true.
-/

namespace JoinPlanner

namespace Expr

/-- The aliases of a tree with what they stand for, from left to right. -/
def leaves : Expr → List (TableName × Expr)
  | aliased name source => [(name, source)]
  | join _ left right _ _ => left.leaves ++ right.leaves
  | filter _ child => child.leaves
  | _ => []

/-- The conditions that a tree applies to rows, at its joins and in its filters. -/
def conditions : Expr → List Expr
  | join _ left right on _ => on.toList ++ (left.conditions ++ right.conditions)
  | filter (.select p _) child => p :: child.conditions
  | filter (.guard p) child => p :: child.conditions
  | filter _ child => child.conditions
  | _ => []

/-- Whether every join condition of a tree reads only relations below its join. -/
def isScoped : Expr → Bool
  | join _ left right on _ =>
    left.isScoped && right.isScoped && on.all fun e => e.tables.isSubset (left.relations ∪ right.relations)
  | _ => true

end Expr

/-- The leaf of a tree that stands for a relation. -/
def Relation.leaf (r : Relation) : TableName × Expr := (r.name, .table r.table)

namespace JoinGraph

@[simp] theorem relations_append (g h : JoinGraph) : (g ++ h).relations = g.relations ++ h.relations := rfl

@[simp] theorem outerJoins_append (g h : JoinGraph) : (g ++ h).outerJoins = g.outerJoins ++ h.outerJoins := rfl

@[simp] theorem filters_append (g h : JoinGraph) : (g ++ h).filters = g.filters ++ h.filters := rfl

@[simp] theorem mem_aliases {g : JoinGraph} {t : TableName} :
    t ∈ g.aliases ↔ t ∈ g.relations.map (·.name) := by
  rw [aliases, SortedSet.mem_ofList]

def conditions (g : JoinGraph) : List Expr :=
  g.filters.map (·.condition) ++ g.outerJoins.flatMap (·.on.toList)

theorem conditions_innerJoin (inside : SortedSet Nat) (g h : JoinGraph) (on : Option Expr) :
    (innerJoin inside g h on).conditions.Perm (on.toList ++ (g.conditions ++ h.conditions)) := by
  have hon : (on.toList.map fun c => JoinFilter.mk c (g ++ h).aliases inside).map (·.condition) =
      on.toList := by
    rw [List.map_map]; exact List.map_id _
  simp only [conditions, innerJoin, filters_append, outerJoins_append, List.map_append, List.flatMap_append,
    hon, ← Multiset.coe_eq_coe, ← Multiset.coe_add]
  abel

theorem conditions_leftJoin (inside : SortedSet Nat) (id : Nat) (g h : JoinGraph) (on : Option Expr) :
    (leftJoin inside id g h on).conditions.Perm (on.toList ++ (g.conditions ++ h.conditions)) := by
  simp only [conditions, leftJoin, filters_append, outerJoins_append, List.map_append, List.flatMap_append,
    List.flatMap_singleton, ← Multiset.coe_eq_coe, ← Multiset.coe_add]
  abel

/-- Every condition of a graph reads only relations below its join. -/
structure Scoped (g : JoinGraph) : Prop where
  filters : ∀ f ∈ g.filters, ∀ t ∈ f.condition.tables, t ∈ f.scope
  outerJoins : ∀ j ∈ g.outerJoins, ∀ e ∈ j.on, ∀ t ∈ e.tables, t ∈ j.left ∨ t ∈ j.right

theorem Scoped.append {g h : JoinGraph} (hg : g.Scoped) (hh : h.Scoped) : (g ++ h).Scoped := by
  constructor
  · intro f hf
    exact (List.mem_append.1 hf).elim (hg.filters f) (hh.filters f)
  · intro j hj
    exact (List.mem_append.1 hj).elim (hg.outerJoins j) (hh.outerJoins j)

/-- `Flattens inside next tree g`: inside given outer joins, and numbered from `next`, the tree has the
graph `g`. -/
inductive Flattens : SortedSet Nat → Nat → Expr → JoinGraph → Prop
  | relation (inside : SortedSet Nat) (next : Nat) (name base : TableName) :
      Flattens inside next (.aliased name (.table base)) { relations := [⟨name, base⟩] }
  | inner {inside : SortedSet Nat} {next : Nat} {kind : JoinKind} {left right : Expr} {on : Option Expr}
      {hints : JoinHints} {g h : JoinGraph} (hk : kind = .cartesian ∨ kind = .inner)
      (hg : Flattens inside next left g) (hh : Flattens inside (next + g.outerJoins.length) right h) :
      Flattens inside next (.join kind left right on hints) (innerJoin inside g h on)
  | outer {inside : SortedSet Nat} {next : Nat} {tree left right : Expr} {on : Option Expr}
      {hints : JoinHints} {g h : JoinGraph}
      (ht : tree = .join .leftOuter left right on hints ∨ tree = .join .rightOuter right left on hints)
      (hg : Flattens inside (next + 1) left g)
      (hh : Flattens (inside.insert next) (next + 1 + g.outerJoins.length) right h) :
      Flattens inside next tree (leftJoin inside next g h on)

theorem flattens_of_ofTree {inside : SortedSet Nat} {next : Nat} {tree : Expr} {g : JoinGraph}
    (h : ofTree inside next tree = .ok g) : Flattens inside next tree g := by
  induction inside, next, tree using ofTree.induct generalizing g with
  | case1 inside next name base => cases h; exact .relation inside next name base
  | case2 inside next name source hsource => rw [ofTree.eq_2 _ _ _ _ hsource] at h; cases h
  | case3 inside next left right on hints ihl ihr =>
    obtain ⟨g, hg, h⟩ := bind_eq_ok.1 h
    obtain ⟨k, hk, h⟩ := bind_eq_ok.1 h
    cases h
    exact .inner (.inl rfl) (ihl hg) (ihr g hk)
  | case4 inside next left right on hints ihl ihr =>
    obtain ⟨g, hg, h⟩ := bind_eq_ok.1 h
    obtain ⟨k, hk, h⟩ := bind_eq_ok.1 h
    cases h
    exact .inner (.inr rfl) (ihl hg) (ihr g hk)
  | case5 inside next left right on hints ihl ihr =>
    obtain ⟨g, hg, h⟩ := bind_eq_ok.1 h
    obtain ⟨k, hk, h⟩ := bind_eq_ok.1 h
    cases h
    exact .outer (.inl rfl) (ihl hg) (ihr g hk)
  | case6 inside next right left on hints ihl ihr =>
    obtain ⟨g, hg, h⟩ := bind_eq_ok.1 h
    obtain ⟨k, hk, h⟩ := bind_eq_ok.1 h
    cases h
    exact .outer (.inr rfl) (ihl hg) (ihr g hk)
  | case7 inside next left right on hints => cases h
  | case8 inside next e h₁ h₂ h₃ h₄ h₅ h₆ h₇ => rw [ofTree.eq_8 _ _ _ h₁ h₂ h₃ h₄ h₅ h₆ h₇] at h; cases h

namespace Flattens

variable {inside : SortedSet Nat} {next : Nat} {tree : Expr} {g : JoinGraph}

theorem leaves_perm (h : Flattens inside next tree g) : (g.relations.map Relation.leaf).Perm tree.leaves := by
  induction h with
  | relation => exact .refl _
  | inner hk hg hh ihg ihh =>
    rw [innerJoin, relations_append, List.map_append]
    exact ihg.append ihh
  | outer ht hg hh ihg ihh =>
    rw [leftJoin, relations_append, List.map_append]
    rcases ht with rfl | rfl
    · exact ihg.append ihh
    · exact (ihg.append ihh).trans List.perm_append_comm

theorem conditions_perm (h : Flattens inside next tree g) : g.conditions.Perm tree.conditions := by
  induction h with
  | relation => exact .refl _
  | @inner inside _ kind left right on hints g h hk hg hh ihg ihh =>
    exact (conditions_innerJoin inside g h on).trans ((ihg.append ihh).append_left _)
  | @outer inside next _ left right on hints g h ht hg hh ihg ihh =>
    have hperm := conditions_leftJoin inside next g h on
    rcases ht with rfl | rfl
    · exact hperm.trans ((ihg.append ihh).append_left _)
    · exact hperm.trans (((ihg.append ihh).trans List.perm_append_comm).append_left _)

theorem mem_relations (h : Flattens inside next tree g) {t : TableName} :
    t ∈ tree.relations ↔ t ∈ g.aliases := by
  induction h with
  | relation => simp [Expr.relations]
  | inner hk hg hh ihg ihh => simp_all [Expr.relations, innerJoin]
  | outer ht hg hh ihg ihh => rcases ht with rfl | rfl <;> simp_all [Expr.relations, leftJoin, or_comm]

theorem scoped_of_isScoped (h : Flattens inside next tree g) (hs : tree.isScoped = true) : g.Scoped := by
  induction h with
  | relation => exact ⟨fun f hf => absurd hf List.not_mem_nil, fun j hj => absurd hj List.not_mem_nil⟩
  | @inner inside _ kind left right on hints g h hk hg hh ihg ihh =>
    rw [Expr.isScoped, Bool.and_eq_true, Bool.and_eq_true] at hs
    obtain ⟨⟨hsg, hsh⟩, hon⟩ := hs
    have both := (ihg hsg).append (ihh hsh)
    refine ⟨fun f hf => ?_, both.outerJoins⟩
    rcases List.mem_append.1 hf with hf | hf
    · exact both.filters f hf
    · obtain ⟨e, he, rfl⟩ := List.mem_map.1 hf
      obtain rfl := Option.mem_toList.1 he
      intro t ht
      have := SortedSet.isSubset_iff.1 hon t ht
      rw [SortedSet.mem_union, hg.mem_relations, hh.mem_relations, mem_aliases, mem_aliases] at this
      rwa [mem_aliases, relations_append, List.map_append, List.mem_append]
  | @outer inside next tree left right on hints g h ht hg hh ihg ihh =>
    have split : left.isScoped = true ∧ right.isScoped = true ∧
        ∀ e ∈ on, ∀ t ∈ e.tables, t ∈ left.relations ∨ t ∈ right.relations := by
      rcases ht with rfl | rfl <;> rw [Expr.isScoped, Bool.and_eq_true, Bool.and_eq_true] at hs
      · refine ⟨hs.1.1, hs.1.2, fun e he t ht => ?_⟩
        obtain rfl := he
        exact SortedSet.mem_union.1 (SortedSet.isSubset_iff.1 hs.2 t ht)
      · refine ⟨hs.1.2, hs.1.1, fun e he t ht => ?_⟩
        obtain rfl := he
        exact (SortedSet.mem_union.1 (SortedSet.isSubset_iff.1 hs.2 t ht)).symm
    have both := (ihg split.1).append (ihh split.2.1)
    refine ⟨both.filters, fun j hj => ?_⟩
    rcases List.mem_append.1 hj with hj | hj
    · exact both.outerJoins j hj
    · obtain rfl := List.mem_singleton.1 hj
      intro e he t ht
      exact (split.2.2 e he t ht).imp hg.mem_relations.1 hh.mem_relations.1

end Flattens

end JoinGraph

end JoinPlanner
