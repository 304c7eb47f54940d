import JoinPlanner.Proofs.Candidate.Readiness
import Mathlib.Data.List.Nodup

/-!
# The nodes of an assembly

`Assembly.nodes` are an assembly and all that it is built from. As the relations of an assembly are
distinct, two nodes that share a relation lie one above the other (`Assembly.nested_of_mem_tables`). A
node of what a predicate makes is the root, a Cartesian join, or a node of what the predicate touches.
-/

namespace JoinPlanner

namespace Assembly

def predicate? : Assembly → Option Predicate
  | select p _ _ => some p
  | join p _ _ _ => some p
  | _ => none

/-- The assembly and all that it is built from. -/
def nodes : Assembly → List Assembly
  | relation r => [relation r]
  | select p path input => select p path input :: input.nodes
  | product left right => product left right :: (left.nodes ++ right.nodes)
  | join p kind left right => join p kind left right :: (left.nodes ++ right.nodes)

/-- All that the assembly is built from. -/
def descendants : Assembly → List Assembly
  | relation _ => []
  | select _ _ input => input.nodes
  | product left right => left.nodes ++ right.nodes
  | join _ _ left right => left.nodes ++ right.nodes

/-- Whether the outer join of a number is performed at the root. -/
def performs (id : Nat) (a : Assembly) : Bool := a.predicate?.any (·.outerJoin = some id)

variable {a b n m : Assembly} {t : TableName}

theorem nodes_eq (a : Assembly) : a.nodes = a :: a.descendants := by
  cases a <;> rfl

theorem mem_nodes_self (a : Assembly) : a ∈ a.nodes := by
  rw [nodes_eq]; exact .head _

theorem mem_nodes : n ∈ a.nodes ↔ n = a ∨ n ∈ a.descendants := by
  rw [nodes_eq, List.mem_cons]

theorem mem_nodes_of_mem_descendants (h : n ∈ a.descendants) : n ∈ a.nodes := mem_nodes.2 (.inr h)

theorem nodes_trans (h : m ∈ n.nodes) (hn : n ∈ a.nodes) : m ∈ a.nodes := by
  induction a with
  | relation r =>
    obtain rfl := List.mem_singleton.1 hn
    exact h
  | select p path input ih =>
    rcases mem_nodes.1 hn with rfl | hn
    · exact h
    · exact mem_nodes_of_mem_descendants (ih hn)
  | product left right ihl ihr =>
    rcases mem_nodes.1 hn with rfl | hn
    · exact h
    · refine mem_nodes_of_mem_descendants (List.mem_append.2 ?_)
      exact (List.mem_append.1 hn).imp ihl ihr
  | join p kind left right ihl ihr =>
    rcases mem_nodes.1 hn with rfl | hn
    · exact h
    · refine mem_nodes_of_mem_descendants (List.mem_append.2 ?_)
      exact (List.mem_append.1 hn).imp ihl ihr

theorem relations_sublist (h : n ∈ a.nodes) : n.relations.Sublist a.relations := by
  induction a with
  | relation r =>
    obtain rfl := List.mem_singleton.1 h
    exact .refl _
  | select p path input ih =>
    rcases mem_nodes.1 h with rfl | h
    · exact .refl _
    · exact ih h
  | product left right ihl ihr =>
    rcases mem_nodes.1 h with rfl | h
    · exact .refl _
    · rcases List.mem_append.1 h with h | h
      · exact (ihl h).trans (List.sublist_append_left _ _)
      · exact (ihr h).trans (List.sublist_append_right _ _)
  | join p kind left right ihl ihr =>
    rcases mem_nodes.1 h with rfl | h
    · exact .refl _
    · rcases List.mem_append.1 h with h | h
      · exact (ihl h).trans (List.sublist_append_left _ _)
      · exact (ihr h).trans (List.sublist_append_right _ _)

theorem mem_tables_of_mem_nodes (h : n ∈ a.nodes) (ht : t ∈ n.tables) : t ∈ a.tables := by
  rw [mem_tables] at ht ⊢
  exact ((relations_sublist h).map _).subset ht

theorem sizeOf_lt_of_mem_descendants (h : n ∈ a.descendants) : sizeOf n < sizeOf a := by
  induction a with
  | relation r => cases h
  | select p path input ih =>
    rw [select.sizeOf_spec]
    rcases mem_nodes.1 h with rfl | h
    · omega
    · have := ih h; omega
  | product left right ihl ihr =>
    rw [product.sizeOf_spec]
    rcases List.mem_append.1 h with h | h <;> rcases mem_nodes.1 h with rfl | h
    · omega
    · have := ihl h; omega
    · omega
    · have := ihr h; omega
  | join p kind left right ihl ihr =>
    rw [join.sizeOf_spec]
    rcases List.mem_append.1 h with h | h <;> rcases mem_nodes.1 h with rfl | h
    · omega
    · have := ihl h; omega
    · omega
    · have := ihr h; omega

theorem not_mem_nodes_of_mem_descendants (h : n ∈ a.descendants) : a ∉ n.nodes := by
  intro h'
  have := sizeOf_lt_of_mem_descendants h
  rcases mem_nodes.1 h' with rfl | h'
  · omega
  · have := sizeOf_lt_of_mem_descendants h'; omega

theorem predicates_eq (a : Assembly) : a.predicates = a.nodes.filterMap predicate? := by
  induction a with
  | relation r => rfl
  | select p path input ih =>
    rw [predicates, nodes, List.filterMap_cons, ih]
    rfl
  | product left right ihl ihr =>
    rw [predicates, nodes, List.filterMap_cons, List.filterMap_append, ihl, ihr]
    rfl
  | join p kind left right ihl ihr =>
    rw [predicates, nodes, List.filterMap_cons, List.filterMap_append, ihl, ihr]
    rfl

theorem mem_predicates {q : Predicate} : q ∈ a.predicates ↔ ∃ n ∈ a.nodes, n.predicate? = some q := by
  rw [predicates_eq, List.mem_filterMap]

theorem same_side {left right : Assembly} (hnd : ((left.relations ++ right.relations).map (·.name)).Nodup)
    (hn : n ∈ left.nodes ++ right.nodes) (hm : m ∈ left.nodes ++ right.nodes) (htn : t ∈ n.tables)
    (htm : t ∈ m.tables) : n ∈ left.nodes ∧ m ∈ left.nodes ∨ n ∈ right.nodes ∧ m ∈ right.nodes := by
  rw [List.map_append] at hnd
  obtain ⟨-, -, apart⟩ := List.nodup_append'.1 hnd
  have cross {l r : Assembly} (hl : l ∈ left.nodes) (hr : r ∈ right.nodes) (htl : t ∈ l.tables)
      (htr : t ∈ r.tables) : False := by
    have hleft := mem_tables.1 (mem_tables_of_mem_nodes hl htl)
    have hright := mem_tables.1 (mem_tables_of_mem_nodes hr htr)
    exact apart hleft hright
  rcases List.mem_append.1 hn with hn | hn <;> rcases List.mem_append.1 hm with hm | hm
  · exact .inl ⟨hn, hm⟩
  · exact (cross hn hm htn htm).elim
  · exact (cross hm hn htm htn).elim
  · exact .inr ⟨hn, hm⟩

/-- Two nodes that share a relation lie one above the other. -/
theorem nested_of_mem_tables (hnd : (a.relations.map (·.name)).Nodup) (hn : n ∈ a.nodes) (hm : m ∈ a.nodes)
    (htn : t ∈ n.tables) (htm : t ∈ m.tables) : n ∈ m.nodes ∨ m ∈ n.nodes := by
  induction a with
  | relation r =>
    obtain rfl := List.mem_singleton.1 hn
    exact .inr hm
  | select p path input ih =>
    rcases mem_nodes.1 hn with rfl | hn'
    · exact .inr hm
    · rcases mem_nodes.1 hm with rfl | hm'
      · exact .inl hn
      · exact ih hnd hn' hm'
  | product left right ihl ihr =>
    rcases mem_nodes.1 hn with rfl | hn'
    · exact .inr hm
    · rcases mem_nodes.1 hm with rfl | hm'
      · exact .inl hn
      · obtain ⟨ndl, ndr, -⟩ := List.nodup_append'.1 (List.map_append ▸ hnd)
        rcases same_side hnd hn' hm' htn htm with ⟨hn', hm'⟩ | ⟨hn', hm'⟩
        · exact ihl ndl hn' hm'
        · exact ihr ndr hn' hm'
  | join p kind left right ihl ihr =>
    rcases mem_nodes.1 hn with rfl | hn'
    · exact .inr hm
    · rcases mem_nodes.1 hm with rfl | hm'
      · exact .inl hn
      · obtain ⟨ndl, ndr, -⟩ := List.nodup_append'.1 (List.map_append ▸ hnd)
        rcases same_side hnd hn' hm' htn htm with ⟨hn', hm'⟩ | ⟨hn', hm'⟩
        · exact ihl ndl hn' hm'
        · exact ihr ndr hn' hm'

/-- A node with relations of the right input of a join and none of the left is in the right input. -/
theorem mem_nodes_right {p : Predicate} {kind : JoinKind} {left right : Assembly}
    (hnd : (a.relations.map (·.name)).Nodup) (hj : join p kind left right ∈ a.nodes) (hn : n ∈ a.nodes)
    (ht : t ∈ n.tables) (htr : t ∈ right.tables) (hleft : ∀ u ∈ left.tables, u ∉ n.tables) :
    n ∈ right.nodes := by
  have inLeft {u : TableName} (hu : u ∈ left.tables) : u ∈ (join p kind left right).tables :=
    mem_tables_of_mem_nodes (mem_nodes_of_mem_descendants (List.mem_append_left _ left.mem_nodes_self)) hu
  have inRight : t ∈ (join p kind left right).tables :=
    mem_tables_of_mem_nodes (mem_nodes_of_mem_descendants (List.mem_append_right _ right.mem_nodes_self)) htr
  obtain ⟨u, hu⟩ := left.exists_mem_tables
  rcases nested_of_mem_tables hnd hn hj ht inRight with hnj | hjn
  · rcases mem_nodes.1 hnj with rfl | hnj
    · exact absurd (inLeft hu) (hleft u hu)
    · rcases List.mem_append.1 hnj with hnl | hnr
      · exact absurd ht (hleft t (mem_tables_of_mem_nodes hnl ht))
      · exact hnr
  · exact absurd (mem_tables_of_mem_nodes hjn (inLeft hu)) (hleft u hu)

/-- Below Cartesian joins, the nodes are those of the parts. -/
structure Composed (parts nodes : List Assembly) : Prop where
  of_part : ∀ b ∈ parts, ∀ n ∈ b.nodes, n ∈ nodes
  or_part : ∀ n ∈ nodes, n.predicate? = none ∨ ∃ b ∈ parts, n ∈ b.nodes

theorem mem_tables_chain {first : Assembly} {rest : List Assembly} :
    t ∈ (chain first rest).tables ↔ ∃ b ∈ first :: rest, t ∈ b.tables := by
  simp only [mem_tables, relations_chain, List.mem_map, List.mem_flatMap]
  constructor
  · rintro ⟨r, ⟨b, hb, hr⟩, rfl⟩
    exact ⟨b, hb, r, hr, rfl⟩
  · rintro ⟨b, hb, r, hr, rfl⟩
    exact ⟨r, ⟨b, hb, hr⟩, rfl⟩

theorem composed_chain (first : Assembly) (rest : List Assembly) :
    Composed (first :: rest) (chain first rest).nodes := by
  induction rest generalizing first with
  | nil =>
    refine ⟨fun b hb n hn => ?_, fun n hn => .inr ⟨first, .head _, hn⟩⟩
    rw [← List.mem_singleton.1 hb]
    exact hn
  | cons c rest ih =>
    obtain ⟨of_part, or_part⟩ := ih (product first c)
    have head : (product first c).nodes = product first c :: (first.nodes ++ c.nodes) := rfl
    constructor
    · intro b hb n hn
      have inProduct (h : n ∈ first.nodes ++ c.nodes) : n ∈ (chain first (c :: rest)).nodes :=
        of_part _ (.head _) n (head ▸ .tail _ h)
      rcases List.mem_cons.1 hb with rfl | hb
      · exact inProduct (List.mem_append_left _ hn)
      · rcases List.mem_cons.1 hb with rfl | hb
        · exact inProduct (List.mem_append_right _ hn)
        · exact of_part b (.tail _ hb) n hn
    · intro n hn
      rcases or_part n hn with hnone | ⟨b, hb, hn⟩
      · exact .inl hnone
      · rcases List.mem_cons.1 hb with rfl | hb
        · rcases mem_nodes.1 hn with rfl | hn
          · exact .inl rfl
          · rcases List.mem_append.1 hn with hn | hn
            · exact .inr ⟨first, .head _, hn⟩
            · exact .inr ⟨c, .tail _ (.head _), hn⟩
        · exact .inr ⟨b, .tail _ (.tail _ hb), hn⟩

theorem Composed.append {parts parts' nodes nodes' : List Assembly} (h : Composed parts nodes)
    (h' : Composed parts' nodes') : Composed (parts ++ parts') (nodes ++ nodes') := by
  constructor
  · intro b hb n hn
    rcases List.mem_append.1 hb with hb | hb
    · exact List.mem_append_left _ (h.of_part b hb n hn)
    · exact List.mem_append_right _ (h'.of_part b hb n hn)
  · intro n hn
    rcases List.mem_append.1 hn with hn | hn
    · exact (h.or_part n hn).imp_right fun ⟨b, hb, hn⟩ => ⟨b, List.mem_append_left _ hb, hn⟩
    · exact (h'.or_part n hn).imp_right fun ⟨b, hb, hn⟩ => ⟨b, List.mem_append_right _ hb, hn⟩

theorem Composed.perm {parts parts' nodes : List Assembly} (h : Composed parts nodes)
    (hp : parts.Perm parts') : Composed parts' nodes :=
  ⟨fun b hb => h.of_part b (hp.mem_iff.2 hb),
    fun n hn => (h.or_part n hn).imp_right fun ⟨b, hb, hn⟩ => ⟨b, hp.mem_iff.1 hb, hn⟩⟩

theorem Composed.forall_nodes {parts nodes : List Assembly} (h : Composed parts nodes) {P : Assembly → Prop}
    (none : ∀ n : Assembly, n.predicate? = none → P n) (hparts : ∀ b ∈ parts, ∀ n ∈ b.nodes, P n) :
    ∀ n ∈ nodes, P n := by
  intro n hn
  rcases h.or_part n hn with hnone | ⟨b, hb, hn⟩
  · exact none n hnone
  · exact hparts b hb n hn

theorem composed_singleton (a : Assembly) : Composed [a] a.nodes := composed_chain a []

end Assembly

namespace Predicate.Fuses

open Assembly

variable {p : Predicate} {touched : List Assembly} {a : Assembly}

theorem eq_of_predicate? (h : p.Fuses touched a) {q : Predicate} (hq : a.predicate? = some q) : q = p := by
  cases h <;> exact (Option.some.inj hq).symm

theorem kind_eq (h : p.Fuses touched a) (hp : p.rightTables = none) {q : Predicate} {kind : JoinKind}
    {left right : Assembly} (ha : a = .join q kind left right) : kind = p.joinKind := by
  cases h with
  | outerJoin hr hl hrs => cases hp.symm.trans hr
  | select hr hpath => cases ha
  | join hr hperm => cases ha; rfl

theorem composed (h : p.Fuses touched a) : Composed touched a.descendants := by
  cases h with
  | @outerJoin right _ ls rs l r hp hl hr =>
    refine ((composed_chain l ls).append (composed_chain r rs)).perm ?_
    exact (hl.append hr).trans (filter_not_append_filter_perm _ touched)
  | @select path b hp hpath => exact composed_singleton b
  | @join _ rest first second hp h =>
    refine ((composed_chain first rest).append (composed_singleton second)).perm ?_
    exact ((List.perm_append_singleton second rest).cons first).trans h

end Predicate.Fuses

namespace Assembly

theorem Paired.composed {as : List Assembly} {a : Assembly} (h : Paired as a) : Composed as a.nodes := by
  induction h with
  | one a => exact composed_singleton a
  | @pair as rest a b c hperm hc ih =>
    obtain ⟨of_part, or_part⟩ := ih
    have last : product a b ∈ rest ++ [product a b] := List.mem_append_right _ (.head _)
    refine Composed.perm ⟨fun d hd n hn => ?_, fun n hn => ?_⟩ hperm.symm
    · rcases List.mem_cons.1 hd with rfl | hd
      · exact of_part _ last n (mem_nodes_of_mem_descendants (List.mem_append_left _ hn))
      · rcases List.mem_cons.1 hd with rfl | hd
        · exact of_part _ last n (mem_nodes_of_mem_descendants (List.mem_append_right _ hn))
        · exact of_part d (List.mem_append_left _ hd) n hn
    · rcases or_part n hn with hnone | ⟨d, hd, hn⟩
      · exact .inl hnone
      · rcases List.mem_append.1 hd with hd | hd
        · exact .inr ⟨d, .tail _ (.tail _ hd), hn⟩
        · obtain rfl := List.mem_singleton.1 hd
          rcases mem_nodes.1 hn with rfl | hn
          · exact .inl rfl
          · rcases List.mem_append.1 hn with hn | hn
            · exact .inr ⟨a, .head _, hn⟩
            · exact .inr ⟨b, .tail _ (.head _), hn⟩

theorem Paired.relations_perm {as : List Assembly} {a : Assembly} (h : Paired as a) :
    a.relations.Perm (as.flatMap relations) := by
  induction h with
  | one a => rw [List.flatMap_singleton]
  | @pair as rest a b c hperm hc ih =>
    refine ih.trans (List.Perm.trans ?_ (hperm.flatMap_right _).symm)
    rw [List.flatMap_append, List.flatMap_singleton, relations, List.flatMap_cons, List.flatMap_cons,
      ← List.append_assoc a.relations]
    exact List.perm_append_comm

theorem Paired.predicates_perm {as : List Assembly} {a : Assembly} (h : Paired as a) :
    a.predicates.Perm (as.flatMap predicates) := by
  induction h with
  | one a => rw [List.flatMap_singleton]
  | @pair as rest a b c hperm hc ih =>
    refine ih.trans (List.Perm.trans ?_ (hperm.flatMap_right _).symm)
    rw [List.flatMap_append, List.flatMap_singleton, predicates, List.flatMap_cons, List.flatMap_cons,
      ← List.append_assoc a.predicates]
    exact List.perm_append_comm

/-! ### Nodes of what is reached -/

namespace Reached

variable {relations : List Relation} {predicates pending : List Predicate} {as : List Assembly}

/-- What holds of nodes without a predicate, and of every node that a step makes if it holds of all nodes
before, holds of all nodes. -/
theorem forall_nodes {P : Assembly → Prop} (none : ∀ n : Assembly, n.predicate? = none → P n)
    (step : ∀ {as pending others p a}, Reached relations predicates as pending →
      (∀ b ∈ as, ∀ n ∈ b.nodes, P n) → (p, others) ∈ Predicate.splits pending →
      p.isReady (as.map fragment) others = true → p.Fuses (as.filter (·.touches p)) a → P a)
    (h : Reached relations predicates as pending) : ∀ b ∈ as, ∀ n ∈ b.nodes, P n := by
  induction h with
  | start =>
    intro b hb n hn
    obtain ⟨r, -, rfl⟩ := List.mem_map.1 hb
    obtain rfl := List.mem_singleton.1 hn
    exact none _ rfl
  | @apply as pending others p a h hp ready fuses ih =>
    intro b hb n hn
    rcases List.mem_append.1 hb with hb | hb
    · exact ih b (List.mem_of_mem_filter hb) n hn
    · obtain rfl := List.mem_singleton.1 hb
      rcases mem_nodes.1 hn with rfl | hn
      · exact step h ih hp ready fuses
      · exact fuses.composed.forall_nodes none (fun c hc => ih c (List.mem_of_mem_filter hc)) n hn

end Reached

/-- The predicate at a node has its relations below, and filters a single input only if it performs no
outer join, through an index only if it is one for this input. -/
structure Applied (n : Assembly) : Prop where
  reads : ∀ p, n.predicate? = some p → ∀ t ∈ p.tables, t ∈ n.tables
  served : ∀ p path input, n = select p path input → ∀ x ∈ path, x ∈ p.filterPaths input.fragment
  select : ∀ p path input, n = select p path input → p.rightTables = none

theorem applied_of_none {n : Assembly} (h : n.predicate? = none) : n.Applied := by
  refine ⟨fun p hp => ?_, fun p path input hn => ?_, fun p path input hn => ?_⟩
  · rw [h] at hp; cases hp
  all_goals rw [hn] at h; cases h

theorem Reached.applied {relations : List Relation} {predicates pending : List Predicate} {as : List Assembly}
    (h : Reached relations predicates as pending) : ∀ b ∈ as, ∀ n ∈ b.nodes, n.Applied := by
  refine forall_nodes (fun n => applied_of_none) (fun {as pending others p a} h _ hp ready fuses => ?_) h
  have hselect : ∀ q path input, a = select q path input →
      q.rightTables = none ∧ ∀ x ∈ path, x ∈ q.filterPaths input.fragment := by
    intro q path input hn
    generalize as.filter (·.touches p) = touched at fuses
    cases fuses with
    | outerJoin hr hl hrs => cases hn
    | select hr hpath => cases hn; exact ⟨hr, hpath⟩
    | join hr hperm => cases hn
  refine ⟨fun q hq t ht => ?_, fun q path input hn => (hselect q path input hn).2,
    fun q path input hn => (hselect q path input hn).1⟩
  obtain rfl := fuses.eq_of_predicate? hq
  have free := (h.sound.isReady_iff (Predicate.perm_of_mem_splits hp)).1 ready
  exact fuses.mem_tables.2 (h.sound.exists_touched (free.present t ht) ht)

/-- All that is reached last goes into the plan. -/
theorem Paired.of_reached {relations : List Relation} {predicates : List Predicate} {as : List Assembly}
    (h : Paired as a) (hreach : Reached relations predicates as []) :
    a.relations.Perm relations ∧ a.predicates.Perm predicates ∧ ∀ n ∈ a.nodes, n.Applied := by
  have happlied := hreach.predicates_perm
  rw [List.append_nil] at happlied
  refine ⟨h.relations_perm.trans hreach.sound.relations, h.predicates_perm.trans happlied, ?_⟩
  exact h.composed.forall_nodes (fun _ => applied_of_none) hreach.applied

end Assembly

end JoinPlanner
