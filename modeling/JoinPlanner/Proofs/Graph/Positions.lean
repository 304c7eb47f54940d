import JoinPlanner.Proofs.Graph.Shape

/-!
# Where the parts of a graph stand in the tree

A node of a tree of joins has a position, the inputs taken from the root down. The outer joins and the filters of a
graph are those of the nodes (`JoinGraph.Located`), an outer join is listed after what stands below it, and it is
around what stands in its right branch and nothing else (`JoinGraph.Enclosed`). With `JoinGraph.Nested` this is the
structure that the flattening records (`JoinGraph.ofTree?_records`).
-/

namespace JoinPlanner

/-- An input of a join as it is written. -/
inductive Side
  | left
  | right
deriving DecidableEq, Repr

/-- The position of a node in a tree of joins: the inputs taken from the root down. -/
abbrev Position := List Side

namespace Expr

def input? : Expr → Side → Option Expr
  | join _ left _ _ _, .left => some left
  | join _ _ right _ _, .right => some right
  | _, _ => none

/-- The input that is the right branch of an outer join: of a right join the left one, as its inputs are swapped. -/
def rightBranch? : Expr → Option Side
  | join .leftOuter _ _ _ _ => some .right
  | join .rightOuter _ _ _ _ => some .left
  | _ => none

/-- The tree with left outer joins, their inputs swapped, for its right outer joins. -/
def turned : Expr → Expr
  | join .rightOuter left right on hints => join .leftOuter right.turned left.turned on hints
  | join kind left right on hints => join kind left.turned right.turned on hints
  | e => e

end Expr

namespace Position

def node? : Position → Option Expr → Option Expr
  | [], tree => tree
  | side :: rest, tree => node? rest (tree.bind (·.input? side))

theorem node?_none (p : Position) : p.node? none = none := by
  induction p with
  | nil => rfl
  | cons side rest ih => exact ih

/-- Of two positions: the first is that of an outer join, and the second lies in its right branch. -/
def InRightBranch (tree : Option Expr) (p q : Position) : Prop :=
  ∃ e ∈ p.node? tree, ∃ side ∈ e.rightBranch?, p ++ [side] <+: q

variable {tree : Option Expr} {e : Expr} {side side' : Side} {p q : Position}

theorem inRightBranch_cons : InRightBranch tree (side :: p) (side' :: q) ↔
    side = side' ∧ InRightBranch (tree.bind (·.input? side)) p q := by
  simp only [InRightBranch, node?, List.cons_append, List.cons_prefix_cons]
  exact ⟨fun ⟨e, he, s, hs, hside, hq⟩ => ⟨hside, e, he, s, hs, hq⟩,
    fun ⟨hside, e, he, s, hs, hq⟩ => ⟨e, he, s, hs, hside, hq⟩⟩

theorem inRightBranch_nil : InRightBranch (some e) [] (side :: q) ↔ e.rightBranch? = some side := by
  constructor
  · rintro ⟨_, he, side', hside, hq⟩
    obtain rfl := Option.some.inj he
    obtain rfl : side' = side := (List.cons_prefix_cons.1 hq).1
    exact hside
  · exact fun h => ⟨e, rfl, side, h, List.cons_prefix_cons.2 ⟨rfl, List.nil_prefix⟩⟩

theorem not_inRightBranch_nil : ¬ InRightBranch tree p [] := by
  rintro ⟨_, _, side, _, hp⟩
  exact List.append_ne_nil_of_right_ne_nil p (List.cons_ne_nil side []) (List.prefix_nil.1 hp)

end Position

/-- The outer join of a node: one branch is the right input of a left join, or the left input of a right join. -/
def OuterJoin.OfNode (j : OuterJoin) (e : Expr) : Prop :=
  ∃ left right hints, (e = .join .leftOuter left right j.on hints ∨ e = .join .rightOuter right left j.on hints) ∧
    j.left = left.relations ∧ j.right = right.relations

/-- The filter of an inner or Cartesian join that has a condition. -/
def JoinFilter.OfNode (f : JoinFilter) (e : Expr) : Prop :=
  ∃ kind left right hints, (kind = .cartesian ∨ kind = .inner) ∧ e = .join kind left right (some f.condition) hints ∧
    f.scope = e.relations

namespace JoinGraph

open Position (InRightBranch)

/-- Parts of a graph with the positions of their nodes: each part is of its node, and every node that there can be a
part of has one. -/
structure Located {α : Type} (OfNode : α → Expr → Prop) (tree : Option Expr) (parts : List (Position × α)) : Prop where
  nodup : (parts.map Prod.fst).Nodup
  ofNode : ∀ x ∈ parts, ∃ e ∈ x.1.node? tree, OfNode x.2 e
  complete : ∀ p : Position, ∀ e ∈ p.node? tree, ∀ a, OfNode a e → ∃ b, (p, b) ∈ parts

/-- Parts of the tree of an input, by their positions in the tree of the join. -/
def below {α : Type} (side : Side) (parts : List (Position × α)) : List (Position × α) :=
  parts.map fun x => (side :: x.1, x.2)

/-- The parts of a join: those of the inputs on two sides, then its own. -/
def gathered {α : Type} (side side' : Side) (parts parts' : List (Position × α)) (own : Option α) :
    List (Position × α) :=
  below side parts ++ below side' parts' ++ own.toList.map ([], ·)

section Gathered

variable {α : Type} {side side' : Side} {parts parts' : List (Position × α)} {own : Option α} {p : Position} {a : α}

theorem mem_below {s : Side} : (s :: p, a) ∈ below side parts ↔ s = side ∧ (p, a) ∈ parts := by
  simp only [below, List.mem_map, Prod.mk.injEq, List.cons.injEq]
  exact ⟨fun ⟨x, hx, ⟨hs, hp⟩, ha⟩ => ⟨hs.symm, hp ▸ ha ▸ hx⟩, fun ⟨hs, hx⟩ => ⟨(p, a), hx, ⟨hs.symm, rfl⟩, rfl⟩⟩

theorem not_mem_below : ([], a) ∉ below side parts := by
  simp [below]

theorem mem_gathered_left (hne : side ≠ side') :
    (side :: p, a) ∈ gathered side side' parts parts' own ↔ (p, a) ∈ parts := by
  simp [gathered, mem_below, hne]

theorem mem_gathered_right (hne : side ≠ side') :
    (side' :: p, a) ∈ gathered side side' parts parts' own ↔ (p, a) ∈ parts' := by
  simp [gathered, mem_below, hne.symm]

theorem mem_gathered_nil : ([], a) ∈ gathered side side' parts parts' own ↔ own = some a := by
  simp [gathered, not_mem_below]

theorem map_snd_gathered : (gathered side side' parts parts' own).map Prod.snd =
    parts.map Prod.snd ++ parts'.map Prod.snd ++ own.toList := by
  simp [gathered, below, Function.comp_def]

end Gathered

/-- A join with its two inputs, each on its side. -/
structure Joins (e : Expr) (side side' : Side) (left right : Expr) : Prop where
  ne : side ≠ side'
  left : e.input? side = some left
  right : e.input? side' = some right

section Join

variable {α : Type} {OfNode : α → Expr → Prop} {e l r : Expr} {side side' : Side} {parts parts' : List (Position × α)}

theorem Joins.eq_or_eq (h : Joins e side side' l r) (s : Side) : s = side ∨ s = side' := by
  have hne := h.ne
  cases s <;> cases side <;> cases side' <;> simp_all

theorem Joins.node?_left (h : Joins e side side' l r) (p : Position) :
    Position.node? (side :: p) (some e) = p.node? (some l) := by
  rw [Position.node?, Option.bind_some, h.left]

theorem Joins.node?_right (h : Joins e side side' l r) (p : Position) :
    Position.node? (side' :: p) (some e) = p.node? (some r) := by
  rw [Position.node?, Option.bind_some, h.right]

theorem Located.gathered (h : Joins e side side' l r) (hl : Located OfNode (some l) parts)
    (hr : Located OfNode (some r) parts') {own : Option α} (hown : ∀ a ∈ own, OfNode a e)
    (hall : ∀ a, OfNode a e → own.isSome = true) :
    Located OfNode (some e) (gathered side side' parts parts' own) where
  nodup := by
    have hbelow (s : Side) {l : List (Position × α)} (hl : (l.map Prod.fst).Nodup) :
        ((below s l).map Prod.fst).Nodup := by
      rw [below, List.map_map, show Prod.fst ∘ (fun x : Position × α => (s :: x.1, x.2)) = (s :: ·) ∘ Prod.fst from rfl,
        ← List.map_map]
      exact hl.map fun _ _ h => (List.cons.inj h).2
    have hfst (s : Side) {l : List (Position × α)} {p : Position} (hp : p ∈ (below s l).map Prod.fst) :
        ∃ q, p = s :: q := by
      obtain ⟨x, hx, rfl⟩ := List.mem_map.1 hp
      obtain ⟨y, -, rfl⟩ := List.mem_map.1 hx
      exact ⟨y.1, rfl⟩
    rw [JoinGraph.gathered, List.map_append, List.map_append]
    refine List.nodup_append'.2 ⟨List.nodup_append'.2 ⟨hbelow side hl.nodup, hbelow side' hr.nodup, ?_⟩, ?_, ?_⟩
    · intro p hp hp'
      obtain ⟨q, rfl⟩ := hfst side hp
      obtain ⟨q', heq⟩ := hfst side' hp'
      exact h.ne (List.cons.inj heq).1
    · cases own <;> simp
    · intro p hp hp'
      have hnil : p = [] := by
        cases own with
        | none => exact absurd hp' List.not_mem_nil
        | some a => exact List.mem_singleton.1 hp'
      rcases List.mem_append.1 hp with hp | hp <;> obtain ⟨q, rfl⟩ := hfst _ hp <;> cases hnil
  ofNode := by
    rintro ⟨p, a⟩ hx
    cases p with
    | nil => exact ⟨e, rfl, hown a (mem_gathered_nil.1 hx)⟩
    | cons s p =>
      rcases h.eq_or_eq s with rfl | rfl
      · show ∃ node ∈ Position.node? (s :: p) (some e), OfNode a node
        rw [h.node?_left]
        exact hl.ofNode _ ((mem_gathered_left h.ne).1 hx)
      · show ∃ node ∈ Position.node? (s :: p) (some e), OfNode a node
        rw [h.node?_right]
        exact hr.ofNode _ ((mem_gathered_right h.ne).1 hx)
  complete := by
    intro p node hnode a hof
    cases p with
    | nil =>
      obtain rfl : e = node := Option.some.inj hnode
      obtain ⟨b, hb⟩ := Option.isSome_iff_exists.1 (hall a hof)
      exact ⟨b, mem_gathered_nil.2 hb⟩
    | cons s p =>
      rcases h.eq_or_eq s with rfl | rfl
      · obtain ⟨b, hb⟩ := hl.complete p node (h.node?_left p ▸ hnode) a hof
        exact ⟨b, (mem_gathered_left h.ne).2 hb⟩
      · obtain ⟨b, hb⟩ := hr.complete p node (h.node?_right p ▸ hnode) a hof
        exact ⟨b, (mem_gathered_right h.ne).2 hb⟩

end Join

/-- What stands at a position of the tree lies inside the outer joins of `outside`, and inside those in whose right
branch it stands. -/
def Enclosed (tree : Option Expr) (outside : SortedSet Nat) (joins : List (Position × OuterJoin)) (p : Position)
    (inside : SortedSet Nat) : Prop :=
  ∀ id, id ∈ inside ↔ id ∈ outside ∨ ∃ q j, (q, j) ∈ joins ∧ j.id = id ∧ InRightBranch tree q p

/-- At the top of a tree there is nothing around it but what is outside. -/
theorem enclosed_nil {tree : Option Expr} {outside : SortedSet Nat} {joins : List (Position × OuterJoin)} :
    Enclosed tree outside joins [] outside :=
  fun _ => ⟨.inl, fun h => h.resolve_right fun ⟨_, _, _, _, hbranch⟩ => Position.not_inRightBranch_nil hbranch⟩

/-- What stands in an input is besides inside the outer join itself, if the input is its right branch. -/
theorem Enclosed.cons {e input : Expr} {side : Side} {outside outside' inside : SortedSet Nat} {p : Position}
    {joins joins' : List (Position × OuterJoin)} (hinput : e.input? side = some input)
    (h : Enclosed (some input) outside joins p inside)
    (hjoins : ∀ q j, (side :: q, j) ∈ joins' ↔ (q, j) ∈ joins)
    (hout : ∀ id, id ∈ outside ↔ id ∈ outside' ∨ ∃ j, ([], j) ∈ joins' ∧ j.id = id ∧ e.rightBranch? = some side) :
    Enclosed (some e) outside' joins' (side :: p) inside := by
  intro id
  rw [h, hout, or_assoc]
  refine or_congr_right ⟨?_, ?_⟩
  · rintro (⟨j, hj, hid, hbranch⟩ | ⟨q, j, hj, hid, hbranch⟩)
    · exact ⟨[], j, hj, hid, Position.inRightBranch_nil.2 hbranch⟩
    · refine ⟨side :: q, j, (hjoins q j).2 hj, hid, Position.inRightBranch_cons.2 ⟨rfl, ?_⟩⟩
      rw [Option.bind_some, hinput]
      exact hbranch
  · rintro ⟨q, j, hj, hid, hbranch⟩
    cases q with
    | nil => exact .inl ⟨j, hj, hid, Position.inRightBranch_nil.1 hbranch⟩
    | cons s q =>
      obtain ⟨rfl, hbelow⟩ := Position.inRightBranch_cons.1 hbranch
      rw [Option.bind_some, hinput] at hbelow
      exact .inr ⟨q, j, (hjoins q j).1 hj, hid, hbelow⟩

/-! ### Graphs -/

/-- The outer joins and the filters of the graph of a tree with their positions, where the tree stands inside the
outer joins of `outside`. -/
structure Placed (tree : Option Expr) (outside : SortedSet Nat) (g : JoinGraph) (joins : List (Position × OuterJoin))
    (filters : List (Position × JoinFilter)) : Prop where
  joins_eq : joins.map Prod.snd = g.outerJoins
  filters_eq : filters.map Prod.snd = g.filters
  joinNodes : Located OuterJoin.OfNode tree joins
  filterNodes : Located JoinFilter.OfNode tree filters
  /-- An outer join is listed after all those in its branches. -/
  listed : joins.Pairwise fun x y => ¬ x.1 <+: y.1
  joinsInside : ∀ x ∈ joins, Enclosed tree outside joins x.1 x.2.inside
  filtersInside : ∀ x ∈ filters, Enclosed tree outside joins x.1 x.2.inside

namespace Placed

/-- Below a join its own parts are listed last, and nothing on one side is below anything on the other. -/
theorem listed_gathered {α : Type} {side side' : Side} {parts parts' : List (Position × α)} {own : Option α}
    (hne : side ≠ side') (hl : parts.Pairwise fun x y => ¬ x.1 <+: y.1)
    (hr : parts'.Pairwise fun x y => ¬ x.1 <+: y.1) :
    (gathered side side' parts parts' own).Pairwise fun x y => ¬ x.1 <+: y.1 := by
  have hbelow (s : Side) {l : List (Position × α)} (hl : l.Pairwise fun x y => ¬ x.1 <+: y.1) :
      (below s l).Pairwise fun x y => ¬ x.1 <+: y.1 :=
    List.pairwise_map.2 (hl.imp fun hxy hp => hxy (List.cons_prefix_cons.1 hp).2)
  refine List.pairwise_append.2 ⟨List.pairwise_append.2 ⟨hbelow side hl, hbelow side' hr, ?_⟩, ?_, ?_⟩
  · intro x hx y hy hp
    obtain ⟨x, -, rfl⟩ := List.mem_map.1 hx
    obtain ⟨y, -, rfl⟩ := List.mem_map.1 hy
    exact hne (List.cons_prefix_cons.1 hp).1
  · cases own <;> simp
  · intro x hx y hy hp
    obtain ⟨a, -, rfl⟩ := List.mem_map.1 hy
    rcases List.mem_append.1 hx with hx | hx <;>
    · obtain ⟨x, -, rfl⟩ := List.mem_map.1 hx
      exact List.cons_ne_nil _ _ (List.prefix_nil.1 hp)

variable {e l r : Expr} {side side' : Side} {g h k : JoinGraph} {outside outside' outside'' : SortedSet Nat}
  {joins joins' : List (Position × OuterJoin)} {filters filters' : List (Position × JoinFilter)}

/-- The parts of a join, with the outer join or the filter of its own. -/
theorem gathered (join : Option OuterJoin) (filter : Option JoinFilter) (he : Joins e side side' l r)
    (hg : Placed (some l) outside' g joins filters) (hh : Placed (some r) outside'' h joins' filters')
    (hjoins : k.outerJoins = g.outerJoins ++ h.outerJoins ++ join.toList)
    (hfilters : k.filters = g.filters ++ h.filters ++ filter.toList)
    (hjoin : ∀ j ∈ join, j.OfNode e ∧ j.inside = outside) (hfilter : ∀ f ∈ filter, f.OfNode e ∧ f.inside = outside)
    (hjoin' : ∀ j : OuterJoin, j.OfNode e → join.isSome = true)
    (hfilter' : ∀ f : JoinFilter, f.OfNode e → filter.isSome = true)
    (hleft : ∀ id, id ∈ outside' ↔ id ∈ outside ∨ ∃ j ∈ join, j.id = id ∧ e.rightBranch? = some side)
    (hright : ∀ id, id ∈ outside'' ↔ id ∈ outside ∨ ∃ j ∈ join, j.id = id ∧ e.rightBranch? = some side') :
    Placed (some e) outside k (JoinGraph.gathered side side' joins joins' join)
      (JoinGraph.gathered side side' filters filters' filter) := by
  have hinside {α : Type} {inside : α → SortedSet Nat} {parts parts' : List (Position × α)} {own : Option α}
      (hl : ∀ x ∈ parts, Enclosed (some l) outside' joins x.1 (inside x.2))
      (hr : ∀ x ∈ parts', Enclosed (some r) outside'' joins' x.1 (inside x.2)) (hown : ∀ a ∈ own, inside a = outside) :
      ∀ x ∈ JoinGraph.gathered side side' parts parts' own,
        Enclosed (some e) outside (JoinGraph.gathered side side' joins joins' join) x.1 (inside x.2) := by
    rintro ⟨p, a⟩ hx
    cases p with
    | nil =>
      show Enclosed _ _ _ [] (inside a)
      rw [hown a (mem_gathered_nil.1 hx)]
      exact enclosed_nil
    | cons s p =>
      rcases he.eq_or_eq s with rfl | rfl
      · refine (hl _ ((mem_gathered_left he.ne).1 hx)).cons he.left (fun q j => mem_gathered_left he.ne) ?_
        simpa only [mem_gathered_nil, Option.mem_def] using hleft
      · refine (hr _ ((mem_gathered_right he.ne).1 hx)).cons he.right (fun q j => mem_gathered_right he.ne) ?_
        simpa only [mem_gathered_nil, Option.mem_def] using hright
  exact {
    joins_eq := by rw [map_snd_gathered, hg.joins_eq, hh.joins_eq, hjoins]
    filters_eq := by rw [map_snd_gathered, hg.filters_eq, hh.filters_eq, hfilters]
    joinNodes := hg.joinNodes.gathered he hh.joinNodes (fun j hj => (hjoin j hj).1) hjoin'
    filterNodes := hg.filterNodes.gathered he hh.filterNodes (fun f hf => (hfilter f hf).1) hfilter'
    listed := listed_gathered he.ne hg.listed hh.listed
    joinsInside := hinside hg.joinsInside hh.joinsInside fun j hj => (hjoin j hj).2
    filtersInside := hinside hg.filtersInside hh.filtersInside fun f hf => (hfilter f hf).2 }

end Placed

theorem Flattens.relations_eq {inside : SortedSet Nat} {next : Nat} {tree : Expr} {g : JoinGraph}
    (h : Flattens inside next tree g) : tree.relations = g.aliases :=
  SortedSet.ext_mem fun _ => h.mem_relations

theorem Flattens.placed {inside : SortedSet Nat} {next : Nat} {tree : Expr} {g : JoinGraph}
    (h : Flattens inside next tree g) : ∃ joins filters, Placed (some tree) inside g joins filters := by
  induction h with
  | relation inside next name base =>
    have hnodes {α : Type} {OfNode : α → Expr → Prop} (hnone : ∀ a, ¬ OfNode a (.aliased name (.table base))) :
        Located OfNode (some (.aliased name (.table base))) [] := by
      refine ⟨.nil, fun x hx => absurd hx List.not_mem_nil, fun p e he a ha => ?_⟩
      cases p with
      | nil => exact absurd (Option.some.inj he ▸ ha) (hnone a)
      | cons side p =>
        change e ∈ Position.node? p none at he
        rw [Position.node?_none] at he
        cases he
    refine ⟨[], [], rfl, rfl, hnodes ?_, hnodes ?_, .nil, fun x hx => absurd hx List.not_mem_nil,
      fun x hx => absurd hx List.not_mem_nil⟩
    · rintro j ⟨left, right, hints, h | h, -⟩ <;> cases h
    · rintro f ⟨kind, left, right, hints, -, h, -⟩
      cases h
  | @inner inside next kind left right on hints g h hk hg hh ihg ihh =>
    obtain ⟨jg, fg, hpg⟩ := ihg
    obtain ⟨jh, fh, hph⟩ := ihh
    have hinputs : Joins (.join kind left right on hints) .left .right left right := ⟨by decide, rfl, rfl⟩
    have hscope : (Expr.join kind left right on hints).relations = (g ++ h).aliases :=
      (Flattens.inner hk hg hh).relations_eq
    have hbranch : (Expr.join kind left right on hints).rightBranch? = none := by
      rcases hk with rfl | rfl <;> rfl
    refine ⟨_, _, hpg.gathered none (on.map fun c => ⟨c, (g ++ h).aliases, inside⟩) hinputs hph
      (List.append_nil _).symm ?_ ?_ ?_ ?_ ?_ ?_ ?_⟩
    · cases on <;> rfl
    · exact fun j hj => nomatch hj
    · intro f hf
      obtain ⟨c, rfl, rfl⟩ := Option.map_eq_some_iff.1 hf
      exact ⟨⟨kind, left, right, hints, hk, rfl, hscope.symm⟩, rfl⟩
    · rintro j ⟨l, r, hints', h | h, -⟩ <;> cases h <;> rcases hk with hk | hk <;> cases hk
    · rintro f ⟨kind', l, r, hints', -, h, -⟩
      cases h
      rfl
    · simp [hbranch]
    · simp [hbranch]
  | @outer inside next tree left right on hints g h ht hg hh ihg ihh =>
    obtain ⟨jg, fg, hpg⟩ := ihg
    obtain ⟨jh, fh, hph⟩ := ihh
    obtain ⟨side, side', hinputs, hbranch⟩ : ∃ side side', Joins tree side side' left right ∧
        tree.rightBranch? = some side' := by
      rcases ht with rfl | rfl
      · exact ⟨.left, .right, ⟨by decide, rfl, rfl⟩, rfl⟩
      · exact ⟨.right, .left, ⟨by decide, rfl, rfl⟩, rfl⟩
    refine ⟨_, _, hpg.gathered (some ⟨next, g.aliases, h.aliases, on, inside⟩) none hinputs hph rfl
      (List.append_nil _).symm ?_ ?_ ?_ ?_ ?_ ?_⟩
    · rintro j ⟨⟩
      exact ⟨⟨left, right, hints, ht, hg.relations_eq.symm, hh.relations_eq.symm⟩, rfl⟩
    · exact fun f hf => nomatch hf
    · exact fun _ _ => rfl
    · rintro f ⟨kind, l, r, hints', hk, h, -⟩
      rcases ht with rfl | rfl <;> cases h <;> rcases hk with hk | hk <;> cases hk
    · have hne := hinputs.ne
      simp [hbranch, hne.symm]
    · simp [hbranch, or_comm, eq_comm]

/-- The relations are listed as the tree has them once its right outer joins are turned. -/
theorem Flattens.leaves_turned {inside : SortedSet Nat} {next : Nat} {tree : Expr} {g : JoinGraph}
    (h : Flattens inside next tree g) : g.relations.map Relation.leaf = tree.turned.leaves := by
  induction h with
  | relation => rfl
  | @inner inside next kind left right on hints g h hk hg hh ihg ihh =>
    rw [innerJoin, relations_append, List.map_append, ihg, ihh]
    rcases hk with rfl | rfl <;> rfl
  | @outer inside next tree left right on hints g h ht hg hh ihg ihh =>
    rw [leftJoin, relations_append, List.map_append, ihg, ihh]
    rcases ht with rfl | rfl <;> rfl

theorem ofTree_turned (inside : SortedSet Nat) (next : Nat) (tree : Expr) :
    ofTree inside next tree.turned = ofTree inside next tree := by
  induction inside, next, tree using ofTree.induct with
  | case1 inside next name base => rfl
  | case2 inside next name source hsource => rfl
  | case3 inside next left right on hints ihl ihr => simp only [Expr.turned, ofTree, ihl, ihr]
  | case4 inside next left right on hints ihl ihr => simp only [Expr.turned, ofTree, ihl, ihr]
  | case5 inside next left right on hints ihl ihr => simp only [Expr.turned, ofTree, ihl, ihr]
  | case6 inside next right left on hints ihl ihr => simp only [Expr.turned, ofTree, ihl, ihr]
  | case7 inside next left right on hints => rfl
  | case8 inside next e h₁ h₂ h₃ h₄ h₅ h₆ h₇ =>
    cases e with
    | join kind left right on hints =>
      cases kind with
      | cartesian => exact (h₃ left right on hints rfl).elim
      | inner => exact (h₄ left right on hints rfl).elim
      | leftOuter => exact (h₅ left right on hints rfl).elim
      | rightOuter => exact (h₆ left right on hints rfl).elim
      | fullOuter => exact (h₇ left right on hints rfl).elim
    | _ => rfl

theorem ofTree?_turned (tree : Option Expr) : ofTree? (tree.map Expr.turned) = ofTree? tree := by
  cases tree with
  | none => rfl
  | some tree => simp only [ofTree?, Option.map_some, ofTree_turned]

/-! ### The recorded structure -/

/-- What the graph of a query records of its tree: a part lies inside an outer join if and only if it stands in its
right branch, and then with all its relations. -/
structure Records (tree : Option Expr) (g : JoinGraph) (joins : List (Position × OuterJoin))
    (filters : List (Position × JoinFilter)) : Prop extends Placed tree ∅ g joins filters where
  joinInside : ∀ x ∈ joins, ∀ y ∈ joins, (x.2.id ∈ y.2.inside ↔ InRightBranch tree x.1 y.1) ∧
    (x.2.id ∈ y.2.inside → ∀ t ∈ y.2.spans, t ∈ x.2.right)
  filterInside : ∀ x ∈ joins, ∀ y ∈ filters, (x.2.id ∈ y.2.inside ↔ InRightBranch tree x.1 y.1) ∧
    (x.2.id ∈ y.2.inside → ∀ t ∈ y.2.scope, t ∈ x.2.right)

variable {tree : Option Expr} {g : JoinGraph} {joins : List (Position × OuterJoin)}
  {filters : List (Position × JoinFilter)}

/-- Of outer joins that are told apart by their numbers, the number of one is in `inside` if and only if what stands
there stands in its right branch. -/
theorem Enclosed.mem_iff {p q : Position} {j : OuterJoin} {inside : SortedSet Nat}
    (h : Enclosed tree ∅ joins p inside) (hids : ((joins.map Prod.snd).map (·.id)).Nodup) (hj : (q, j) ∈ joins) :
    j.id ∈ inside ↔ InRightBranch tree q p := by
  rw [h]
  constructor
  · rintro (hid | ⟨q', j', hj', hid, hbranch⟩)
    · exact absurd hid SortedSet.not_mem_empty
    · rw [List.map_map] at hids
      have heq : (q', j') = (q, j) := List.inj_on_of_nodup_map hids hj' hj hid
      cases heq
      exact hbranch
  · exact fun hbranch => .inr ⟨q, j, hj, rfl, hbranch⟩

theorem Placed.records (h : Placed tree ∅ g joins filters) (hn : g.Nested) : g.Records tree joins filters := by
  have hids : ((joins.map Prod.snd).map (·.id)).Nodup := by
    rw [h.joins_eq]
    exact List.pairwise_map.2 (hn.ordered.imp OuterJoin.Before.id_ne)
  have hjoin {x : Position × OuterJoin} (hx : x ∈ joins) : x.2 ∈ g.outerJoins :=
    h.joins_eq ▸ List.mem_map_of_mem hx
  have hfilter {x : Position × JoinFilter} (hx : x ∈ filters) : x.2 ∈ g.filters :=
    h.filters_eq ▸ List.mem_map_of_mem hx
  exact { h with
    joinInside := fun x hx y hy => ⟨(h.joinsInside y hy).mem_iff hids hx,
      fun hid _ => hn.mem_right_of_inside (hjoin hy) (hjoin hx) hid⟩
    filterInside := fun x hx y hy => ⟨(h.filtersInside y hy).mem_iff hids hx,
      fun hid => hn.branches y.2 (hfilter hy) x.2 (hjoin hx) hid⟩ }

/-- The right branches of two outer joins are nested or disjoint. -/
theorem Nested.laminar (h : g.Nested) : g.outerJoins.Pairwise fun j k =>
    (∀ t ∈ j.right, t ∈ k.right) ∨ (∀ t ∈ k.right, t ∈ j.right) ∨ ∀ t ∈ j.right, t ∉ k.right := by
  refine List.Pairwise.imp_of_mem (fun {j k} _ hk hb => ?_) h.ordered
  have hspan {t : TableName} (ht : t ∈ j.right) : t ∈ j.spans := OuterJoin.mem_spans.2 (.inr ht)
  rcases hb.nested with ⟨-, hright⟩ | ⟨-, hleft | hapart⟩
  · exact .inl fun t ht => hright t (hspan ht)
  · exact .inr (.inr fun t ht => (h.proper k hk).disjoint t (hleft t (hspan ht)))
  · exact .inr (.inr fun t ht hk => hapart t (hspan ht) (OuterJoin.mem_spans.2 (.inr hk)))

/-- The graph of a tree of joins has the relations of the tree, and the structure of its outer joins. -/
theorem ofTree?_records (h : ofTree? tree = .ok g) :
    (g.relations.map Relation.leaf).Perm (tree.toList.flatMap Expr.leaves) ∧
    g.relations.map Relation.leaf = (tree.map Expr.turned).toList.flatMap Expr.leaves ∧
    (g.outerJoins.map (·.id)).Nodup ∧ (∀ j ∈ g.outerJoins, ∀ t ∈ j.left, t ∉ j.right) ∧
    (g.outerJoins.Pairwise fun j k =>
      (∀ t ∈ j.right, t ∈ k.right) ∨ (∀ t ∈ k.right, t ∈ j.right) ∨ ∀ t ∈ j.right, t ∉ k.right) ∧
    (∃ joins filters, g.Records tree joins filters) ∧ ofTree? (tree.map Expr.turned) = .ok g := by
  have hn := nested_of_ofTree? h
  have hids : (g.outerJoins.map (·.id)).Nodup := List.pairwise_map.2 (hn.ordered.imp OuterJoin.Before.id_ne)
  obtain ⟨hperm, hturned, joins, filters, hplaced⟩ : (g.relations.map Relation.leaf).Perm
      (tree.toList.flatMap Expr.leaves) ∧
      g.relations.map Relation.leaf = (tree.map Expr.turned).toList.flatMap Expr.leaves ∧
      ∃ joins filters, Placed tree ∅ g joins filters := by
    obtain ⟨-, ⟨rfl, rfl⟩ | ⟨t, rfl, hflat⟩⟩ := ofTree?_eq_ok h
    · have hnodes {α : Type} {OfNode : α → Expr → Prop} : Located OfNode none [] :=
        ⟨.nil, fun x hx => absurd hx List.not_mem_nil, fun p e he => by rw [Position.node?_none] at he; cases he⟩
      exact ⟨.nil, rfl, [], [], rfl, rfl, hnodes, hnodes, .nil, fun x hx => absurd hx List.not_mem_nil,
        fun x hx => absurd hx List.not_mem_nil⟩
    · rw [Option.map_some, Option.toList_some, Option.toList_some, List.flatMap_singleton, List.flatMap_singleton]
      exact ⟨hflat.leaves_perm, hflat.leaves_turned, hflat.placed⟩
  exact ⟨hperm, hturned, hids, fun j hj => (hn.proper j hj).disjoint, hn.laminar, ⟨joins, filters, hplaced.records hn⟩,
    (ofTree?_turned tree).trans h⟩

/-- `(b JOIN (c LEFT JOIN e ON c.x = e.x) ON b.x = c.x) RIGHT JOIN (a LEFT JOIN d) ON a.x = b.x`. -/
def mixedJoins : Expr :=
  let relation (n : String) : Expr := .relation ⟨none, n⟩ ⟨none, n⟩
  let equals (l r : String) : Option Expr := some (.equals (.column ⟨⟨none, l⟩, "x"⟩) (.column ⟨⟨none, r⟩, "x"⟩))
  let branch := .join .inner (relation "b") (.join .leftOuter (relation "c") (relation "e") (equals "c" "e") {})
    (equals "b" "c") {}
  .join .rightOuter branch (.join .leftOuter (relation "a") (relation "d") none {}) (equals "a" "b") {}

/-- The inputs of the right join are swapped, so the join of `c` and `e` lies in its right branch. -/
theorem ofTree?_records_mixedJoins : ∃ g joins filters, ofTree? (some mixedJoins) = .ok g ∧
    g.Records (some mixedJoins) joins filters ∧ g.relations.map (·.name.name) = ["a", "d", "b", "c", "e"] ∧
    g.outerJoins.map (fun j => (j.id, j.inside.toList)) = [(1, []), (2, [0]), (0, [])] ∧
    g.filters.map (·.inside.toList) = [[0]] := by
  have hnames : (ofTree? (some mixedJoins)).toOption.map (·.relations.map (·.name.name)) =
      some ["a", "d", "b", "c", "e"] := by decide +kernel
  have hjoins : (ofTree? (some mixedJoins)).toOption.map (·.outerJoins.map fun j => (j.id, j.inside.toList)) =
      some [(1, []), (2, [0]), (0, [])] := by decide +kernel
  have hfilters : (ofTree? (some mixedJoins)).toOption.map (·.filters.map (·.inside.toList)) = some [[0]] := by
    decide +kernel
  cases h : ofTree? (some mixedJoins) with
  | error e => rw [h] at hnames; cases hnames
  | ok g =>
    obtain ⟨-, -, -, -, -, ⟨joins, filters, hrecords⟩, -⟩ := ofTree?_records h
    rw [h] at hnames hjoins hfilters
    exact ⟨g, joins, filters, rfl, hrecords, Option.some.inj hnames, Option.some.inj hjoins, Option.some.inj hfilters⟩

end JoinGraph

end JoinPlanner
