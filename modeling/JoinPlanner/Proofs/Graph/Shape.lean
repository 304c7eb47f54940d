import JoinPlanner.Proofs.Graph.Flatten
import JoinPlanner.Query
import Mathlib.Data.List.Pairwise

/-!
# The shape of a join graph

Of two outer joins of a graph the one listed earlier lies in the right branch of the other, in its left
branch, or apart from it (`OuterJoin.Before`), and its `inside` says whether it is the first. What lies
inside an outer join has all its relations in the right branch. `JoinGraph.Shape` is the invariant of
the flattening that carries these facts, `JoinGraph.Nested` what it comes to for a query.
-/

namespace JoinPlanner

namespace OuterJoin

def spans (j : OuterJoin) : TableSet := j.left ∪ j.right

theorem mem_spans {j : OuterJoin} {t : TableName} : t ∈ j.spans ↔ t ∈ j.left ∨ t ∈ j.right :=
  SortedSet.mem_union

/-- How an outer join lies to one that is listed after it. -/
structure Before (j k : OuterJoin) : Prop where
  id_ne : j.id ≠ k.id
  not_inside : j.id ∉ k.inside
  nested : (k.id ∈ j.inside ∧ ∀ t ∈ j.spans, t ∈ k.right) ∨
    k.id ∉ j.inside ∧ ((∀ t ∈ j.spans, t ∈ k.left) ∨ ∀ t ∈ j.spans, t ∉ k.spans)

/-- An outer join of relations among those named. -/
structure Proper (names : List TableName) (j : OuterJoin) : Prop where
  exists_left : ∃ t, t ∈ j.left
  exists_right : ∃ t, t ∈ j.right
  disjoint : ∀ t ∈ j.left, t ∉ j.right
  present : ∀ t ∈ j.spans, t ∈ names
  own : j.id ∉ j.inside

theorem Proper.mono {names names' : List TableName} {j : OuterJoin} (h : j.Proper names)
    (hn : names ⊆ names') : j.Proper names' :=
  ⟨h.exists_left, h.exists_right, h.disjoint, fun t ht => hn (h.present t ht), h.own⟩

end OuterJoin

namespace JoinGraph

def names (g : JoinGraph) : List TableName := g.relations.map (·.name)

@[simp] theorem names_append (g h : JoinGraph) : (g ++ h).names = g.names ++ h.names := List.map_append

/-- A condition lies inside all of `low`, and inside no others but those of `high` and those numbered
from `first` to `last`. -/
structure Inside (low high : SortedSet Nat) (first last : Nat) (inside : SortedSet Nat) : Prop where
  all : ∀ id ∈ low, id ∈ inside
  only : ∀ id ∈ inside, id ∈ high ∨ first ≤ id ∧ id < last

theorem Inside.mono {low low' high high' inside : SortedSet Nat} {first first' last last' : Nat}
    (h : Inside low high first last inside) (hlow : ∀ id ∈ low', id ∈ low)
    (honly : ∀ id, id ∈ high ∨ first ≤ id ∧ id < last → id ∈ high' ∨ first' ≤ id ∧ id < last') :
    Inside low' high' first' last' inside :=
  ⟨fun id hid => h.all id (hlow id hid), fun id hid => honly id (h.only id hid)⟩

theorem Inside.not_mem {low high inside : SortedSet Nat} {first last id : Nat}
    (h : Inside low high first last inside) (hhigh : id ∉ high) (hid : id < first ∨ last ≤ id) : id ∉ inside := by
  intro hmem
  rcases h.only id hmem with hmem | hmem
  · exact hhigh hmem
  · omega

/-- The shape of the graph of a tree whose outer joins are numbered from `next`. -/
structure Shape (low high : SortedSet Nat) (next : Nat) (g : JoinGraph) : Prop where
  exists_name : ∃ t, t ∈ g.names
  numbered : ∀ j ∈ g.outerJoins, next ≤ j.id ∧ j.id < next + g.outerJoins.length
  proper : ∀ j ∈ g.outerJoins, j.Proper g.names
  joinsInside : ∀ j ∈ g.outerJoins, Inside low high next (next + g.outerJoins.length) j.inside
  ordered : g.outerJoins.Pairwise OuterJoin.Before
  scopes : ∀ f ∈ g.filters, (∃ t, t ∈ f.scope) ∧ ∀ t ∈ f.scope, t ∈ g.names
  filtersInside : ∀ f ∈ g.filters, Inside low high next (next + g.outerJoins.length) f.inside
  branches : ∀ f ∈ g.filters, ∀ j ∈ g.outerJoins, j.id ∈ f.inside → ∀ t ∈ f.scope, t ∈ j.right

namespace Shape

variable {low low' mid high : SortedSet Nat} {next : Nat} {g h : JoinGraph}

theorem relation (low high : SortedSet Nat) (next : Nat) (r : Relation) :
    Shape low high next { relations := [r] } where
  exists_name := ⟨r.name, by simp [names]⟩
  numbered j hj := absurd hj List.not_mem_nil
  proper j hj := absurd hj List.not_mem_nil
  joinsInside j hj := absurd hj List.not_mem_nil
  ordered := .nil
  scopes f hf := absurd hf List.not_mem_nil
  filtersInside f hf := absurd hf List.not_mem_nil
  branches f hf := absurd hf List.not_mem_nil

theorem append (hg : g.Shape low mid next) (hh : h.Shape low' high (next + g.outerJoins.length))
    (hlow : ∀ id ∈ low, id ∈ low') (hmid : ∀ id ∈ mid, id ∈ high) (hhigh : ∀ id ∈ high, id < next)
    (hnames : ∀ t ∈ g.names, t ∉ h.names) : (g ++ h).Shape low high next := by
  have hlen : (g ++ h).outerJoins.length = g.outerJoins.length + h.outerJoins.length := List.length_append
  have insideG {s : SortedSet Nat} (hs : Inside low mid next (next + g.outerJoins.length) s) :
      Inside low high next (next + (g ++ h).outerJoins.length) s := by
    refine hs.mono (fun id hid => hid) fun id hid => ?_
    rcases hid with hid | hid
    · exact .inl (hmid id hid)
    · exact .inr (by omega)
  have insideH {s : SortedSet Nat} (hs : Inside low' high (next + g.outerJoins.length)
      (next + g.outerJoins.length + h.outerJoins.length) s) :
      Inside low high next (next + (g ++ h).outerJoins.length) s := by
    refine hs.mono hlow fun id hid => ?_
    rcases hid with hid | hid
    · exact .inl hid
    · exact .inr (by omega)
  -- nothing on one side is inside an outer join of the other
  have apartG {s : SortedSet Nat} (hs : Inside low mid next (next + g.outerJoins.length) s) :
      ∀ k ∈ h.outerJoins, k.id ∉ s := by
    intro k hk
    have hnum := hh.numbered k hk
    refine hs.not_mem (fun hid => ?_) (by omega)
    have := hhigh _ (hmid _ hid)
    omega
  have apartH {s : SortedSet Nat} (hs : Inside low' high (next + g.outerJoins.length)
      (next + g.outerJoins.length + h.outerJoins.length) s) : ∀ j ∈ g.outerJoins, j.id ∉ s := by
    intro j hj
    have hnum := hg.numbered j hj
    refine hs.not_mem (fun hid => ?_) (by omega)
    have := hhigh _ hid
    omega
  have left : g.names ⊆ (g ++ h).names := by rw [names_append]; exact List.subset_append_left _ _
  have right : h.names ⊆ (g ++ h).names := by rw [names_append]; exact List.subset_append_right _ _
  refine ⟨?_, ?_, ?_, ?_, ?_, ?_, ?_, ?_⟩
  · obtain ⟨t, ht⟩ := hg.exists_name
    exact ⟨t, left ht⟩
  · intro j hj
    rcases List.mem_append.1 hj with hj | hj
    · have := hg.numbered j hj; omega
    · have := hh.numbered j hj; omega
  · intro j hj
    rcases List.mem_append.1 hj with hj | hj
    · exact (hg.proper j hj).mono left
    · exact (hh.proper j hj).mono right
  · intro j hj
    rcases List.mem_append.1 hj with hj | hj
    · exact insideG (hg.joinsInside j hj)
    · exact insideH (hh.joinsInside j hj)
  · refine List.pairwise_append.2 ⟨hg.ordered, hh.ordered, fun j hj k hk => ?_⟩
    refine ⟨?_, apartH (hh.joinsInside k hk) j hj, .inr ⟨apartG (hg.joinsInside j hj) k hk, .inr ?_⟩⟩
    · have := hg.numbered j hj; have := hh.numbered k hk; omega
    · exact fun t ht hk' => hnames t ((hg.proper j hj).present t ht) ((hh.proper k hk).present t hk')
  · intro f hf
    rcases List.mem_append.1 hf with hf | hf
    · exact ⟨(hg.scopes f hf).1, fun t ht => left ((hg.scopes f hf).2 t ht)⟩
    · exact ⟨(hh.scopes f hf).1, fun t ht => right ((hh.scopes f hf).2 t ht)⟩
  · intro f hf
    rcases List.mem_append.1 hf with hf | hf
    · exact insideG (hg.filtersInside f hf)
    · exact insideH (hh.filtersInside f hf)
  · intro f hf j hj hid
    rcases List.mem_append.1 hf with hf | hf <;> rcases List.mem_append.1 hj with hj | hj
    · exact hg.branches f hf j hj hid
    · exact absurd hid (apartG (hg.filtersInside f hf) j hj)
    · exact absurd hid (apartH (hh.filtersInside f hf) j hj)
    · exact hh.branches f hf j hj hid

/-- An inner join adds its condition, over all relations below it. -/
theorem innerJoin {inside : SortedSet Nat} (h' : (g ++ h).Shape inside inside next)
    (hinside : ∀ id ∈ inside, id < next) (on : Option Expr) :
    (innerJoin inside g h on).Shape inside inside next := by
  refine { h' with scopes := fun f hf => ?_, filtersInside := fun f hf => ?_, branches := fun f hf => ?_ } <;>
    rcases List.mem_append.1 hf with hf | hf
  · exact h'.scopes f hf
  · obtain ⟨e, -, rfl⟩ := List.mem_map.1 hf
    obtain ⟨t, ht⟩ := h'.exists_name
    exact ⟨⟨t, mem_aliases.2 ht⟩, fun t ht => mem_aliases.1 ht⟩
  · exact h'.filtersInside f hf
  · obtain ⟨e, -, rfl⟩ := List.mem_map.1 hf
    exact ⟨fun id hid => hid, fun id hid => .inl hid⟩
  · exact h'.branches f hf
  · obtain ⟨e, -, rfl⟩ := List.mem_map.1 hf
    intro j hj hid
    have := (h'.numbered j hj).1
    have := hinside _ hid
    omega

theorem append_leftJoin {inside : SortedSet Nat} (hg : g.Shape inside inside (next + 1))
    (hh : h.Shape (inside.insert next) (inside.insert next) (next + 1 + g.outerJoins.length))
    (hinside : ∀ id ∈ inside, id < next) (hnames : ∀ t ∈ g.names, t ∉ h.names) :
    (g ++ h).Shape inside (inside.insert next) (next + 1) := by
  refine hg.append hh (fun id hid => SortedSet.mem_insert.2 (.inr hid))
    (fun id hid => SortedSet.mem_insert.2 (.inr hid)) (fun id hid => ?_) hnames
  rcases SortedSet.mem_insert.1 hid with rfl | hid
  · omega
  · have := hinside id hid; omega

/-- The outer join of two graphs is around all of the right one and nothing of the left. -/
theorem branches_leftJoin {inside s : SortedSet Nat} (hinside : ∀ id ∈ inside, id < next) {last : Nat} :
    (Inside inside inside (next + 1) last s → next ∉ s) ∧
      ∀ {first : Nat}, Inside (inside.insert next) (inside.insert next) first last s → next ∈ s := by
  constructor
  · intro hs
    refine hs.not_mem (fun hid => ?_) (by omega)
    have := hinside _ hid
    omega
  · intro first hs
    exact hs.all _ (SortedSet.mem_insert.2 (.inl rfl))

theorem before_leftJoin {inside : SortedSet Nat} (hg : g.Shape inside inside (next + 1))
    (hh : h.Shape (inside.insert next) (inside.insert next) (next + 1 + g.outerJoins.length))
    (hinside : ∀ id ∈ inside, id < next) (hnames : ∀ t ∈ g.names, t ∉ h.names) (on : Option Expr)
    {j : OuterJoin} (hj : j ∈ (g ++ h).outerJoins) : j.Before ⟨next, g.aliases, h.aliases, on, inside⟩ := by
  have hnum := (append_leftJoin hg hh hinside hnames).numbered j hj
  refine ⟨by show j.id ≠ next; omega, fun hid => ?_, ?_⟩
  · have := hinside _ hid
    omega
  · rcases List.mem_append.1 hj with hj | hj
    · refine .inr ⟨(branches_leftJoin hinside).1 (hg.joinsInside j hj), .inl fun t ht => ?_⟩
      exact mem_aliases.2 ((hg.proper j hj).present t ht)
    · refine .inl ⟨(branches_leftJoin hinside).2 (hh.joinsInside j hj), fun t ht => ?_⟩
      exact mem_aliases.2 ((hh.proper j hj).present t ht)

/-- An outer join is listed after all those below it. -/
theorem leftJoin {inside : SortedSet Nat} (hg : g.Shape inside inside (next + 1))
    (hh : h.Shape (inside.insert next) (inside.insert next) (next + 1 + g.outerJoins.length))
    (hinside : ∀ id ∈ inside, id < next) (hnames : ∀ t ∈ g.names, t ∉ h.names) (on : Option Expr) :
    (leftJoin inside next g h on).Shape inside inside next := by
  have both := append_leftJoin hg hh hinside hnames
  have hlen : (JoinGraph.leftJoin inside next g h on).outerJoins.length = (g ++ h).outerJoins.length + 1 := by
    rw [JoinGraph.leftJoin, List.length_append]; rfl
  have names {t : TableName} : t ∈ (g ++ h).names ↔ t ∈ g.aliases ∨ t ∈ h.aliases := by
    rw [names_append, List.mem_append, mem_aliases, mem_aliases]; rfl
  have extend {s : SortedSet Nat}
      (hs : Inside inside (inside.insert next) (next + 1) (next + 1 + (g ++ h).outerJoins.length) s) :
      Inside inside inside next (next + (JoinGraph.leftJoin inside next g h on).outerJoins.length) s := by
    refine hs.mono (fun id hid => hid) fun id hid => ?_
    rw [hlen]
    rcases hid with hid | hid
    · rcases SortedSet.mem_insert.1 hid with rfl | hid
      · exact .inr (by omega)
      · exact .inl hid
    · exact .inr (by omega)
  refine ⟨both.exists_name, ?_, ?_, ?_, ?_, both.scopes, fun f hf => extend (both.filtersInside f hf), ?_⟩
  · intro j hj
    rw [hlen]
    rcases List.mem_append.1 hj with hj | hj
    · have := both.numbered j hj; omega
    · obtain rfl := List.mem_singleton.1 hj
      exact ⟨Nat.le_refl _, by show next < _; omega⟩
  · intro j hj
    rcases List.mem_append.1 hj with hj | hj
    · exact both.proper j hj
    · obtain rfl := List.mem_singleton.1 hj
      obtain ⟨t, ht⟩ := hg.exists_name
      obtain ⟨u, hu⟩ := hh.exists_name
      have outside : next ∉ inside := fun hid => Nat.lt_irrefl _ (hinside _ hid)
      exact ⟨⟨t, mem_aliases.2 ht⟩, ⟨u, mem_aliases.2 hu⟩,
        fun t ht ht' => hnames t (mem_aliases.1 ht) (mem_aliases.1 ht'),
        fun t ht => names.2 (OuterJoin.mem_spans.1 ht), outside⟩
  · intro j hj
    rcases List.mem_append.1 hj with hj | hj
    · exact extend (both.joinsInside j hj)
    · obtain rfl := List.mem_singleton.1 hj
      exact ⟨fun id hid => hid, fun id hid => .inl hid⟩
  · refine List.pairwise_append.2 ⟨both.ordered, List.pairwise_singleton _ _, fun j hj k hk => ?_⟩
    obtain rfl := List.mem_singleton.1 hk
    exact before_leftJoin hg hh hinside hnames on hj
  · intro f hf j hj hid
    rcases List.mem_append.1 hj with hj | hj
    · exact both.branches f hf j hj hid
    · obtain rfl := List.mem_singleton.1 hj
      rcases List.mem_append.1 hf with hf | hf
      · exact absurd hid ((branches_leftJoin hinside).1 (hg.filtersInside f hf))
      · exact fun t ht => mem_aliases.2 ((hh.scopes f hf).2 t ht)

end Shape

theorem Flattens.shape {inside : SortedSet Nat} {next : Nat} {tree : Expr} {g : JoinGraph}
    (h : Flattens inside next tree g) (hinside : ∀ id ∈ inside, id < next) (hnames : g.names.Nodup) :
    g.Shape inside inside next := by
  induction h with
  | relation inside next name base => exact .relation _ _ _ _
  | @inner inside next kind left right on hints g h hk hg hh ihg ihh =>
    obtain ⟨ng, nh, apart⟩ := List.nodup_append'.1 ((names_append g h).symm ▸ hnames)
    have both : (g ++ h).Shape inside inside next :=
      (ihg hinside ng).append (ihh (fun id hid => by have := hinside id hid; omega) nh)
        (fun id hid => hid) (fun id hid => hid) hinside fun t ht ht' => apart ht ht'
    exact both.innerJoin hinside on
  | @outer inside next tree left right on hints g h ht hg hh ihg ihh =>
    obtain ⟨ng, nh, apart⟩ := List.nodup_append'.1 ((names_append g h).symm ▸ hnames)
    refine (ihg (fun id hid => by have := hinside id hid; omega) ng).leftJoin
      (ihh (fun id hid => ?_) nh) hinside (fun t ht ht' => apart ht ht') on
    rcases SortedSet.mem_insert.1 hid with rfl | hid
    · omega
    · have := hinside id hid; omega

/-! ### The graph of a query -/

theorem firstRepeated_eq_none_iff {seen : TableSet} {l : List TableName} :
    firstRepeated seen l = none ↔ l.Nodup ∧ ∀ t ∈ l, t ∉ seen := by
  induction l generalizing seen with
  | nil => simp [firstRepeated]
  | cons t rest ih =>
    unfold firstRepeated
    by_cases ht : seen.contains t = true
    · rw [if_pos ht]
      have := SortedSet.contains_iff.1 ht
      simp_all
    · rw [if_neg ht, ih, List.nodup_cons]
      rw [SortedSet.contains_iff] at ht
      constructor
      · rintro ⟨hn, hseen⟩
        refine ⟨⟨fun hmem => ?_, hn⟩, fun u hu => ?_⟩
        · exact hseen t hmem (SortedSet.mem_insert.2 (.inl rfl))
        · rcases List.mem_cons.1 hu with rfl | hu
          · exact ht
          · exact fun h => hseen u hu (SortedSet.mem_insert.2 (.inr h))
      · rintro ⟨⟨hmem, hn⟩, hseen⟩
        refine ⟨hn, fun u hu h => ?_⟩
        rcases SortedSet.mem_insert.1 h with rfl | h
        · exact hmem hu
        · exact hseen u (.tail _ hu) h

theorem ofTree?_eq_ok {tree : Option Expr} {g : JoinGraph} (h : ofTree? tree = .ok g) :
    g.names.Nodup ∧ ((tree = none ∧ g = {}) ∨ ∃ t, tree = some t ∧ Flattens ∅ 0 t g) := by
  cases tree with
  | none => cases h; exact ⟨.nil, .inl ⟨rfl, rfl⟩⟩
  | some tree =>
    obtain ⟨g', hg, h⟩ := bind_eq_ok.1 h
    dsimp only at h
    split at h
    · cases h
    · next hrep =>
      cases h
      exact ⟨(firstRepeated_eq_none_iff.1 hrep).1, .inr ⟨tree, rfl, flattens_of_ofTree hg⟩⟩

/-- How the parts of the graph of a query lie to one another. -/
structure Nested (g : JoinGraph) : Prop where
  names : g.names.Nodup
  proper : ∀ j ∈ g.outerJoins, j.Proper g.names
  ordered : g.outerJoins.Pairwise OuterJoin.Before
  scopes : ∀ f ∈ g.filters, (∃ t, t ∈ f.scope) ∧ ∀ t ∈ f.scope, t ∈ g.names
  branches : ∀ f ∈ g.filters, ∀ j ∈ g.outerJoins, j.id ∈ f.inside → ∀ t ∈ f.scope, t ∈ j.right

theorem nested_of_ofTree? {tree : Option Expr} {g : JoinGraph} (h : ofTree? tree = .ok g) : g.Nested := by
  obtain ⟨hnames, ⟨-, rfl⟩ | ⟨t, -, hflat⟩⟩ := ofTree?_eq_ok h
  · exact ⟨.nil, fun j hj => absurd hj List.not_mem_nil, .nil, fun f hf => absurd hf List.not_mem_nil,
      fun f hf => absurd hf List.not_mem_nil⟩
  · have shape := hflat.shape (fun id hid => absurd hid SortedSet.not_mem_empty) hnames
    exact ⟨hnames, shape.proper, shape.ordered, shape.scopes, shape.branches⟩

namespace Nested

variable {g : JoinGraph} {j k : OuterJoin}

theorem before_or_before (h : g.Nested) (hj : j ∈ g.outerJoins) (hk : k ∈ g.outerJoins) (hne : j ≠ k) :
    j.Before k ∨ k.Before j := by
  have pairwise : g.outerJoins.Pairwise fun j k => j.Before k ∨ k.Before j := h.ordered.imp .inl
  have : Std.Symm fun j k : OuterJoin => j.Before k ∨ k.Before j := ⟨fun _ _ => Or.symm⟩
  exact pairwise.forall hj hk hne

theorem eq_of_id_eq (h : g.Nested) (hj : j ∈ g.outerJoins) (hk : k ∈ g.outerJoins) (hid : j.id = k.id) :
    j = k := by
  by_contra hne
  rcases h.before_or_before hj hk hne with hb | hb
  · exact hb.id_ne hid
  · exact hb.id_ne hid.symm

theorem filter_id (h : g.Nested) (hj : j ∈ g.outerJoins) :
    (g.outerJoins.filter fun k => k.id = j.id) = [j] := by
  obtain ⟨before, after, heq⟩ := List.append_of_mem hj
  have hord := h.ordered
  rw [heq, List.pairwise_append, List.pairwise_cons] at hord
  obtain ⟨-, ⟨hafter, -⟩, hbefore⟩ := hord
  have none (l : List OuterJoin) (hl : ∀ k ∈ l, k.id ≠ j.id) : l.filter (fun k => k.id = j.id) = [] :=
    List.filter_eq_nil_iff.2 fun k hk => by simpa using hl k hk
  rw [heq, List.filter_append, List.filter_cons_of_pos (by simp),
    none before fun k hk => (hbefore k hk j (.head _)).id_ne, none after fun k hk => (hafter k hk).id_ne.symm]
  rfl

/-- All of an outer join that lies inside another is in the right branch of that one. -/
theorem mem_right_of_inside (h : g.Nested) (hj : j ∈ g.outerJoins) (hk : k ∈ g.outerJoins)
    (hin : k.id ∈ j.inside) {t : TableName} (ht : t ∈ j.spans) : t ∈ k.right := by
  have hne : j ≠ k := by rintro rfl; exact (h.proper j hj).own hin
  rcases h.before_or_before hj hk hne with hb | hb
  · rcases hb.nested with ⟨-, hsub⟩ | ⟨hout, -⟩
    · exact hsub t ht
    · exact absurd hin hout
  · exact absurd hin hb.not_inside

end Nested


end JoinGraph

namespace Query

/-- The join graph of a query whose joins are accepted. -/
def joinGraph (query : Query) : JoinGraph := ((JoinGraph.ofTree? query.graph).toOption).getD {}

theorem ofTree?_joinGraph {query : Query} (h : (JoinGraph.ofTree? query.graph).isOk = true) :
    JoinGraph.ofTree? query.graph = .ok query.joinGraph := by
  unfold joinGraph
  cases hg : JoinGraph.ofTree? query.graph with
  | error e => rw [hg] at h; cases h
  | ok g => rfl

def relations (query : Query) : TableSet := (query.graph.map (·.relations)).getD ∅

/-- Whether every join condition reads only relations below its join, and the filter only relations of
the query. -/
def isScoped (query : Query) : Bool :=
  query.graph.all (·.isScoped) && query.filter.all fun e => e.tables.isSubset query.relations

variable {query : Query} {graph : JoinGraph}

theorem scoped_graph (hg : JoinGraph.ofTree? query.graph = .ok graph) (h : query.isScoped = true) :
    graph.Scoped := by
  rw [isScoped, Bool.and_eq_true] at h
  obtain ⟨-, ⟨-, rfl⟩ | ⟨t, ht, hflat⟩⟩ := JoinGraph.ofTree?_eq_ok hg
  · exact ⟨fun f hf => absurd hf List.not_mem_nil, fun j hj => absurd hj List.not_mem_nil⟩
  · rw [ht] at h
    exact hflat.scoped_of_isScoped h.1

theorem filter_present (hg : JoinGraph.ofTree? query.graph = .ok graph) (h : query.isScoped = true) :
    ∀ e ∈ query.filter, ∀ t ∈ e.tables, t ∈ graph.names := by
  intro e he t ht
  rw [isScoped, Bool.and_eq_true, Option.mem_def.1 he] at h
  have hrel : t ∈ query.relations := SortedSet.isSubset_iff.1 h.2 t ht
  obtain ⟨-, ⟨hnone, rfl⟩ | ⟨tree, htree, hflat⟩⟩ := JoinGraph.ofTree?_eq_ok hg
  · rw [relations, hnone] at hrel
    exact absurd hrel SortedSet.not_mem_empty
  · rw [relations, htree] at hrel
    exact JoinGraph.mem_aliases.1 (hflat.mem_relations.1 hrel)

end Query

end JoinPlanner
