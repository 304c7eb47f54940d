import JoinPlanner.Proofs.Candidate.Nodes

/-!
# The footprint of predicates

While predicates are applied, relations that no predicate reads stay on their own: below a node with a predicate
every relation is read by some predicate (`Assembly.Footed.read`), and the predicate of a join reads from both of
its inputs (`Assembly.Footed.sides`).
-/

namespace JoinPlanner

variable {relations : List Relation} {predicates pending : List Predicate} {as : List Assembly}

/-- Some of the predicates reads the relation. -/
def Relation.IsRead (predicates : List Predicate) (r : Relation) : Prop := ∃ p ∈ predicates, r.name ∈ p.tables

instance (predicates : List Predicate) (r : Relation) : Decidable (r.IsRead predicates) :=
  inferInstanceAs (Decidable (∃ p ∈ predicates, r.name ∈ p.tables.toList))

namespace Assembly

/-- Below a node with a predicate only relations that are read, on either side of a join one that its predicate
reads. -/
structure Footed (predicates : List Predicate) (n : Assembly) : Prop where
  read : ∀ p, n.predicate? = some p → ∀ r ∈ n.relations, r.IsRead predicates
  sides : ∀ p kind left right, n = join p kind left right → left.touches p = true ∧ right.touches p = true

theorem footed_of_none {n : Assembly} (h : n.predicate? = none) : n.Footed predicates := by
  refine ⟨fun p hp => ?_, fun p kind left right hn => ?_⟩
  · rw [h] at hp; cases hp
  · rw [hn] at h; cases h

theorem Footed.mono {predicates' : List Predicate} {n : Assembly} (h : n.Footed predicates)
    (hsub : predicates ⊆ predicates') : n.Footed predicates' := by
  refine ⟨fun p hp r hr => ?_, h.sides⟩
  obtain ⟨q, hq, hread⟩ := h.read p hp r hr
  exact ⟨q, hsub hq, hread⟩

theorem touches_chain {p : Predicate} {first b : Assembly} {rest : List Assembly} (hb : b ∈ first :: rest)
    (h : b.touches p = true) : (chain first rest).touches p = true := by
  obtain ⟨t, ht, htp⟩ := touches_iff.1 h
  exact touches_iff.2 ⟨t, mem_tables_chain.2 ⟨b, hb, ht⟩, htp⟩

/-- The predicate of a join of distinct relations reads at least two. -/
theorem two_le_size {p : Predicate} {left right : Assembly} (hleft : left.touches p = true)
    (hright : right.touches p = true) (hnames : ((left.relations ++ right.relations).map (·.name)).Nodup) :
    2 ≤ p.tables.size := by
  obtain ⟨t, ht, htp⟩ := touches_iff.1 hleft
  obtain ⟨u, hu, hup⟩ := touches_iff.1 hright
  rw [List.map_append] at hnames
  have hne : t ≠ u := by
    rintro rfl
    exact (List.nodup_append'.1 hnames).2.2 (mem_tables.1 ht) (mem_tables.1 hu)
  have hpair : [t, u].Subperm p.tables.toList := by
    refine List.subperm_of_subset (by simp [hne]) ?_
    intro v hv
    rcases List.mem_pair.1 hv with rfl | rfl
    · exact htp
    · exact hup
  exact hpair.length_le

end Assembly

open Assembly

namespace Predicate.Fuses

variable {p : Predicate} {touched : List Assembly} {a : Assembly}

theorem predicate?_eq (h : p.Fuses touched a) : a.predicate? = some p := by
  cases h <;> rfl

/-- Both inputs of a join have a part that was touched. -/
theorem sides (h : p.Fuses touched a) (htouched : ∀ b ∈ touched, b.touches p = true) {q : Predicate}
    {kind : JoinKind} {left right : Assembly} (ha : a = .join q kind left right) :
    left.touches q = true ∧ right.touches q = true := by
  cases h with
  | @outerJoin right _ ls rs l r hp hl hr =>
    cases ha
    have hleft : l ∈ touched := List.mem_of_mem_filter (hl.mem_iff.1 (.head _))
    have hright : r ∈ touched := List.mem_of_mem_filter (hr.mem_iff.1 (.head _))
    exact ⟨touches_chain (.head _) (htouched l hleft), touches_chain (.head _) (htouched r hright)⟩
  | select hp hpath => cases ha
  | @join _ rest first second hp hperm =>
    cases ha
    have hfirst : first ∈ touched := hperm.mem_iff.1 (.head _)
    have hsecond : right ∈ touched := hperm.mem_iff.1 (.tail _ (.head _))
    exact ⟨touches_chain (.head _) (htouched first hfirst), htouched right hsecond⟩

end Predicate.Fuses

namespace Assembly.Reached

/-- What is not yet part of anything is a bare relation. -/
theorem eq_relation_or (h : Reached relations predicates as pending) :
    ∀ b ∈ as, (∃ r, b = relation r) ∨ ∃ p, b.predicate? = some p := by
  induction h with
  | start =>
    intro b hb
    obtain ⟨r, -, rfl⟩ := List.mem_map.1 hb
    exact .inl ⟨r, rfl⟩
  | @apply as pending others p a h hp ready fuses ih =>
    intro b hb
    rcases List.mem_append.1 hb with hb | hb
    · exact ih b (List.mem_of_mem_filter hb)
    · obtain rfl := List.mem_singleton.1 hb
      exact .inr ⟨p, fuses.predicate?_eq⟩

theorem footed (h : Reached relations predicates as pending) : ∀ b ∈ as, ∀ n ∈ b.nodes, n.Footed predicates := by
  refine forall_nodes (fun n => footed_of_none) (fun {as pending others p a} h ih hp _ fuses => ?_) h
  have hpending : p ∈ pending := (Predicate.perm_of_mem_splits hp).mem_iff.2 (.head _)
  have hmem : p ∈ predicates := h.predicates_perm.mem_iff.1 (List.mem_append_right _ hpending)
  refine ⟨fun _ _ r hr => ?_, fun q kind left right ha => ?_⟩
  · obtain ⟨b, hb, hrb⟩ := List.mem_flatMap.1 (fuses.relations_perm.mem_iff.1 hr)
    obtain ⟨hb, htouches⟩ := List.mem_filter.1 hb
    rcases h.eq_relation_or b hb with ⟨r', rfl⟩ | ⟨q, hq⟩
    · obtain rfl := List.mem_singleton.1 hrb
      obtain ⟨t, ht, htp⟩ := touches_iff.1 htouches
      obtain rfl := List.mem_singleton.1 (mem_tables.1 ht)
      exact ⟨p, hmem, htp⟩
    · exact (ih b hb b b.mem_nodes_self).read q hq r hrb
  · exact fuses.sides (fun b hb => (List.mem_filter.1 hb).2) ha

end Assembly.Reached

end JoinPlanner
