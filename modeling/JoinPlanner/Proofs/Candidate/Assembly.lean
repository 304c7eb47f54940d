import JoinPlanner.Candidate.Build
import JoinPlanner.Proofs.Candidate.Choice
import JoinPlanner.Proofs.Random.Draws
import JoinPlanner.Proofs.SortedSet
import Mathlib.Data.List.Perm.Basic

/-!
# Assemblies

An `Assembly` is a partial plan that remembers which predicate was applied at which node; its
`fragment` is the partial plan itself. `Predicate.Fuses` says what a predicate makes of the assemblies
that it touches, `Assembly.Reached` what a building passes through, and `Assembly.Closes` how the last
assemblies become a plan, all without the random draws.
-/

namespace JoinPlanner

/-- A partial plan with the predicate applied at every node. -/
inductive Assembly
  | relation (r : Relation)
  | select (p : Predicate) (path : Option AccessPath) (input : Assembly)
  | product (left right : Assembly)
  | join (p : Predicate) (kind : JoinKind) (left right : Assembly)
deriving Inhabited

namespace Assembly

def fragment : Assembly → Fragment
  | relation r => .ofRelation r
  | select p path input =>
    { input.fragment with tree := .filter (.select p.condition path) input.fragment.tree }
  | product left right => left.fragment.product right.fragment
  | join p kind left right => p.join kind left.fragment right.fragment

def tree (a : Assembly) : Expr := a.fragment.tree

def tables (a : Assembly) : TableSet := a.fragment.tables

def relations : Assembly → List Relation
  | relation r => [r]
  | select _ _ input => input.relations
  | product left right => left.relations ++ right.relations
  | join _ _ left right => left.relations ++ right.relations

def predicates : Assembly → List Predicate
  | relation _ => []
  | select p _ input => p :: input.predicates
  | product left right => left.predicates ++ right.predicates
  | join p _ left right => p :: (left.predicates ++ right.predicates)

def touches (a : Assembly) (p : Predicate) : Bool := a.fragment.isTouchedBy p

@[simp] theorem mem_tables {a : Assembly} {t : TableName} :
    t ∈ a.tables ↔ t ∈ a.relations.map (·.name) := by
  induction a with
  | relation r => simp [tables, fragment, Fragment.ofRelation, relations]
  | select p path input ih => exact ih
  | product left right ihl ihr =>
    rw [relations, List.map_append, List.mem_append, ← ihl, ← ihr]
    exact SortedSet.mem_union
  | join p kind left right ihl ihr =>
    rw [relations, List.map_append, List.mem_append, ← ihl, ← ihr]
    exact SortedSet.mem_union

theorem relations_ne_nil (a : Assembly) : a.relations ≠ [] := by
  induction a <;> simp_all [relations]

theorem exists_mem_tables (a : Assembly) : ∃ t, t ∈ a.tables := by
  obtain ⟨r, hr⟩ := List.exists_mem_of_ne_nil _ a.relations_ne_nil
  exact ⟨r.name, mem_tables.2 (List.mem_map_of_mem hr)⟩

theorem touches_iff {a : Assembly} {p : Predicate} :
    a.touches p = true ↔ ∃ t ∈ a.tables, t ∈ p.tables := by
  rw [touches, Fragment.isTouchedBy, Bool.not_eq_true', SortedSet.isDisjoint_eq_false_iff]
  rfl

/-- The Cartesian joins of assemblies, from the left. -/
def chain (first : Assembly) (rest : List Assembly) : Assembly := rest.foldl product first

theorem fragment_chain (first : Assembly) (rest : List Assembly) :
    (chain first rest).fragment = (rest.map fragment).foldl Fragment.product first.fragment := by
  induction rest generalizing first with
  | nil => rfl
  | cons a rest ih => exact ih _

theorem relations_chain (first : Assembly) (rest : List Assembly) :
    (chain first rest).relations = (first :: rest).flatMap relations := by
  induction rest generalizing first with
  | nil => simp [chain]
  | cons a rest ih => rw [chain, List.foldl_cons, ← chain, ih]; simp [relations]

theorem predicates_chain (first : Assembly) (rest : List Assembly) :
    (chain first rest).predicates = (first :: rest).flatMap predicates := by
  induction rest generalizing first with
  | nil => simp [chain]
  | cons a rest ih => rw [chain, List.foldl_cons, ← chain, ih]; simp [predicates]

end Assembly

/-- `p.Fuses touched a`: the predicate makes the assembly `a` of those that it touches. -/
inductive Predicate.Fuses (p : Predicate) : List Assembly → Assembly → Prop
  | outerJoin {right : TableSet} {touched ls rs : List Assembly} {l r : Assembly}
      (hp : p.rightTables = some right)
      (hl : (l :: ls).Perm (touched.filter fun a => !a.tables.isSubset right))
      (hr : (r :: rs).Perm (touched.filter fun a => a.tables.isSubset right)) :
      Fuses p touched (.join p .leftOuter (l.chain ls) (r.chain rs))
  | select {path : Option AccessPath} {a : Assembly} (hp : p.rightTables = none)
      (hpath : ∀ x ∈ path, x ∈ p.filterPaths a.fragment) : Fuses p [a] (.select p path a)
  | join {touched rest : List Assembly} {first second : Assembly} (hp : p.rightTables = none)
      (h : (first :: second :: rest).Perm touched) :
      Fuses p touched (.join p p.joinKind (first.chain rest) second)

namespace Assembly

/-- The assemblies and the pending predicates that the building from some relations and predicates
may reach. -/
inductive Reached (relations : List Relation) (predicates : List Predicate) :
    List Assembly → List Predicate → Prop
  | start : Reached relations predicates (relations.map relation) predicates
  | apply {as : List Assembly} {pending others : List Predicate} {p : Predicate} {a : Assembly}
      (h : Reached relations predicates as pending) (hp : (p, others) ∈ Predicate.splits pending)
      (ready : p.isReady (as.map fragment) others = true) (fuses : p.Fuses (as.filter (·.touches p)) a) :
      Reached relations predicates (as.filter (!·.touches p) ++ [a]) others

/-- `Paired as a`: Cartesian joins of two at a time make `a` of `as`. -/
inductive Paired : List Assembly → Assembly → Prop
  | one (a : Assembly) : Paired [a] a
  | pair {as rest : List Assembly} {a b c : Assembly} (h : as.Perm (a :: b :: rest))
      (hc : Paired (rest ++ [product a b]) c) : Paired as c

/-- The tree of a plan made of the last assemblies; of none it is the single row. -/
inductive Closes : List Assembly → Expr → Prop
  | none : Closes [] .singleRow
  | paired {as : List Assembly} {a : Assembly} (h : Paired as a) : Closes as a.tree

end Assembly

end JoinPlanner
