import JoinPlanner.Expr.Text

/-!
# Planning errors

Every error ends the planning of a query: the query asks for what cannot be planned, or the parts of
the planner do not fit together. The constructors are the causes; `PlanError.message` is the
wording.
-/

namespace JoinPlanner

inductive CatalogError
  | unknownTable (table : TableName)
  | unknownColumn (table : TableName) (column : String)
  | unknownIndex (table : TableName) (index : String)
deriving DecidableEq, Repr

namespace CatalogError

def message : CatalogError → String
  | unknownTable table => "unknown table " ++ table.render
  | unknownColumn table column => "unknown column " ++ column ++ " in table " ++ table.render
  | unknownIndex table index => "unknown index " ++ index ++ " on table " ++ table.render

end CatalogError

/-- Where a tree is read that does not allow every node. -/
inductive Place
  | joinGraph
  | aliasSource
  | operatorTree
  | costing
deriving DecidableEq, Repr

def Place.name : Place → String
  | joinGraph => "join graph"
  | aliasSource => "alias source"
  | operatorTree => "operator graph"
  | costing => "cost model"

inductive Obstacle
  /-- None of the pending predicates may be applied to the present trees. -/
  | noneReady (pending : Nat) (trees : List TableSet)
  | noRelation
  | foreignTable (table : TableName)

def Obstacle.message : Obstacle → String
  | noneReady pending trees =>
    let tree (tables : TableSet) := "[" ++ ", ".intercalate (tables.toList.map (·.render)) ++ "]"
    toString pending ++ " predicate(s) pending, none schedulable over trees "
      ++ " ".intercalate (trees.map tree)
  | noRelation => "no relation of the plan resolves it"
  | foreignTable table => "references " ++ table.render ++ ", which is not a relation of the query"

inductive Inconsistency
  | repeatedAlias (name : TableName)
  /-- An order of predicates that names one twice or one that is not there. -/
  | notASelection (order : List Nat) (predicates : Nat)
  | lostInput (predicate : Expr)
  | unknownAlias (name : TableName)
  | unboundConstant (predicate : Expr) (inside : SortedSet Nat)
  | noFinitePlan

def renderNumbers (opening closing : String) (numbers : List Nat) : String :=
  opening ++ ", ".intercalate (numbers.map toString) ++ closing

def Inconsistency.message : Inconsistency → String
  | repeatedAlias name =>
    "alias " ++ name.render ++ " appears more than once in the join graph"
  | notASelection order predicates =>
    "predicate order " ++ renderNumbers "[" "]" order ++ " is not a selection of "
      ++ toString predicates ++ " predicate(s)"
  | lostInput predicate => "join predicate `" ++ predicate.render ++ "` lost one of its inputs"
  | unknownAlias name => "alias " ++ name.render ++ " is not a relation of the query"
  | unboundConstant predicate inside =>
    "constant `" ++ predicate.render ++ "` under outer join(s) "
      ++ renderNumbers "\x7b" "\x7d" inside.toList ++ " has no relation to bind to"
  | noFinitePlan => "search finished without any finite-cost plan"

inductive PlanError
  | unsupportedJoin (kind : JoinKind) (place : Place)
  | unexpectedNode (node : Expr) (place : Place)
  | range (error : RangeError)
  | catalog (error : CatalogError)
  /-- The cost of a node was read before it was computed. -/
  | costNotSet (node : Expr)
  | unschedulable (predicate : Expr) (obstacle : Obstacle)
  | inconsistent (fault : Inconsistency)
  /-- A random event of a chance that is not a number was asked for. It is no error that planning
  reports: the program ends there. -/
  | invalidChance

namespace PlanError

def message : PlanError → String
  | unsupportedJoin kind place =>
    "unsupported join type " ++ kind.name ++ " in " ++ place.name
  | unexpectedNode node place =>
    "unexpected " ++ node.kindName ++ " node in " ++ place.name ++ ": " ++ node.render
  | range error => error.message
  | catalog error => error.message
  | costNotSet node =>
    "cost of " ++ node.kindName ++ " node read before it was computed: " ++ node.render
  | unschedulable predicate obstacle =>
    "predicate `" ++ predicate.render ++ "` cannot be scheduled: " ++ obstacle.message
  | inconsistent fault => "inconsistent dependency bookkeeping: " ++ fault.message
  | invalidChance => "chance is not a number"

end PlanError

/-- Actions that may end in an error, on a state that outlasts it. -/
abbrev PlanM (S : Type) := ExceptT PlanError (StateM S)

theorem bind_eq_ok {ε α β : Type} {x : Except ε α} {f : α → Except ε β} {b : β} :
    x >>= f = .ok b ↔ ∃ a, x = .ok a ∧ f a = .ok b := by
  cases x <;> simp [bind, Except.bind]

theorem forM_eq_ok {ε α : Type} {f : α → Except ε Unit} {as : List α} (h : as.forM f = .ok ()) :
    ∀ a ∈ as, f a = .ok () := by
  induction as with
  | nil => intro a ha; cases ha
  | cons a as ih =>
    obtain ⟨_, ha, has⟩ := bind_eq_ok.1 h
    exact List.forall_mem_cons.2 ⟨ha, ih has⟩

theorem forM_ok {ε α : Type} {f : α → Except ε Unit} {as : List α} (h : ∀ a ∈ as, f a = .ok ()) :
    as.forM f = .ok () := by
  induction as with
  | nil => rfl
  | cons a as ih =>
    obtain ⟨ha, has⟩ := List.forall_mem_cons.1 h
    exact bind_eq_ok.2 ⟨(), ha, ih has⟩

/-- The first element that is refused is the one reported. -/
theorem forM_eq_error {ε α : Type} {f : α → Except ε Unit} {before after : List α} {a : α} {e : ε}
    (h : ∀ b ∈ before, f b = .ok ()) (ha : f a = .error e) : (before ++ a :: after).forM f = .error e := by
  induction before with
  | nil =>
    show (f a >>= fun _ => after.forM f) = _
    rw [ha]
    rfl
  | cons b before ih =>
    obtain ⟨hb, hbefore⟩ := List.forall_mem_cons.1 h
    show (f b >>= fun _ => (before ++ a :: after).forM f) = _
    rw [hb]
    exact ih hbefore

instance : MonadLift (Except RangeError) (Except PlanError) := ⟨Except.mapError .range⟩

instance : MonadLift (Except CatalogError) (Except PlanError) := ⟨Except.mapError .catalog⟩

end JoinPlanner
