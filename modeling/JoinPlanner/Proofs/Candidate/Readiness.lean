import JoinPlanner.Proofs.Candidate.Run

/-!
# Readiness without the fragments

Whether a predicate is ready looks at the fragments. In every state that a building reaches the
assemblies have the relations of the problem among them, and no right branch still to be joined splits
one of them (`Assembly.Sound`), so that readiness depends on the predicate's own tables and on the
other pending predicates alone (`Sound.isReady_iff`), and being ready is not lost when the others get
fewer (`Predicate.Unblocked.mono`).
-/

namespace JoinPlanner

/-- The second set holds all members of the first, or none. -/
def SortedSet.Unsplit {α : Type} [Ord α] (s right : SortedSet α) : Prop :=
  (∀ t ∈ s, t ∈ right) ∨ ∀ t ∈ s, t ∉ right

theorem SortedSet.Unsplit.mem_of_mem {α : Type} [Ord α] {s right : SortedSet α} (h : s.Unsplit right)
    {t u : α} (ht : t ∈ s) (hr : t ∈ right) (hu : u ∈ s) : u ∈ right := by
  rcases h with h | h
  · exact h u hu
  · exact absurd hr (h t ht)

theorem SortedSet.Unsplit.not_mem_of_not_mem {α : Type} [Ord α] {s right : SortedSet α}
    (h : s.Unsplit right) {t u : α} (ht : t ∈ s) (hr : t ∉ right) (hu : u ∈ s) : u ∉ right := by
  rcases h with h | h
  · exact absurd (h t ht) hr
  · exact h u hu

theorem filter_not_append_filter_perm {α : Type} (P : α → Bool) (l : List α) :
    (l.filter (!P ·) ++ l.filter P).Perm l := by
  simpa using List.filter_append_perm (!P ·) l

open Assembly

namespace Predicate

namespace Fuses

variable {p : Predicate} {touched : List Assembly} {a : Assembly}

/-- The assemblies that are touched are the parts of what is made, in some order. -/
theorem exists_parts (h : p.Fuses touched a) :
    ∃ parts : List Assembly, parts.Perm touched ∧ a.relations = parts.flatMap Assembly.relations ∧
      a.predicates = p :: parts.flatMap Assembly.predicates := by
  cases h with
  | @outerJoin right _ ls rs l r hp hl hr =>
    refine ⟨(l :: ls) ++ (r :: rs),
      (hl.append hr).trans (filter_not_append_filter_perm _ touched), ?_, ?_⟩
    · rw [Assembly.relations, relations_chain, relations_chain, List.flatMap_append]
    · rw [Assembly.predicates, predicates_chain, predicates_chain, List.flatMap_append]
  | @select path b hp hpath =>
    exact ⟨[b], .refl _, by simp [Assembly.relations], by simp [Assembly.predicates]⟩
  | @join _ rest first second hp h =>
    refine ⟨(first :: rest) ++ [second], ?_, ?_, ?_⟩
    · exact ((List.perm_append_singleton second rest).cons first).trans h
    · rw [Assembly.relations, relations_chain, List.flatMap_append, List.flatMap_singleton]
    · rw [Assembly.predicates, predicates_chain, List.flatMap_append, List.flatMap_singleton]

theorem relations_perm (h : p.Fuses touched a) :
    a.relations.Perm (touched.flatMap Assembly.relations) := by
  obtain ⟨parts, hp, hr, -⟩ := h.exists_parts
  exact hr ▸ hp.flatMap_right _

theorem predicates_perm (h : p.Fuses touched a) :
    a.predicates.Perm (p :: touched.flatMap Assembly.predicates) := by
  obtain ⟨parts, hp, -, hq⟩ := h.exists_parts
  exact hq ▸ (hp.flatMap_right _).cons p

theorem mem_tables (h : p.Fuses touched a) {t : TableName} :
    t ∈ a.tables ↔ ∃ b ∈ touched, t ∈ b.tables := by
  rw [Assembly.mem_tables, (h.relations_perm.map _).mem_iff]
  simp only [List.mem_map, List.mem_flatMap, Assembly.mem_tables]
  constructor
  · rintro ⟨r, ⟨b, hb, hr⟩, rfl⟩
    exact ⟨b, hb, r, hr, rfl⟩
  · rintro ⟨b, hb, r, hr, rfl⟩
    exact ⟨r, ⟨b, hb, hr⟩, rfl⟩

end Fuses

variable {p : Predicate}

theorem mem_covered {as : List Assembly} {t : TableName} :
    t ∈ p.covered (as.map fragment) ↔ ∃ a ∈ as, a.touches p = true ∧ t ∈ a.tables := by
  rw [covered, List.filter_map, SortedSet.mem_unions]
  simp only [List.mem_map, List.mem_filter]
  constructor
  · rintro ⟨_, ⟨_, ⟨a, ⟨ha, hp⟩, rfl⟩, rfl⟩, ht⟩
    exact ⟨a, ha, hp, ht⟩
  · rintro ⟨a, ha, hp, ht⟩
    exact ⟨_, ⟨_, ⟨a, ⟨ha, hp⟩, rfl⟩, rfl⟩, ht⟩

theorem all_branches_iff {others : List Predicate} {P : TableSet → Bool} :
    (others.filterMap rightTables).all P = true ↔
      ∀ q ∈ others, ∀ right, q.rightTables = some right → P right = true := by
  simp only [List.all_eq_true, List.mem_filterMap]
  exact ⟨fun h q hq right hr => h right ⟨q, hq, hr⟩, fun h right ⟨q, hq, hr⟩ => h q hq right hr⟩

/-- A predicate that may be applied while others are pending, by its tables among those of the
problem. -/
structure Unblocked (names : List TableName) (p : Predicate) (others : List Predicate) : Prop where
  present : ∀ t ∈ p.tables, t ∈ names
  unsplit : ∀ q ∈ others, ∀ right, q.rightTables = some right → p.tables.Unsplit right
  hasLeft : ∀ right, p.rightTables = some right → ∃ t ∈ p.tables, t ∉ right
  emptied : ∀ right, p.rightTables = some right → ∀ id, p.outerJoin = some id →
    ∀ q ∈ others, id ∉ q.inside
  waited : p.rightTables = none → ∀ reached, p.waitsFor = some reached →
    ∀ q ∈ others, ∀ right, q.rightTables = some right → ∀ t ∈ right, t ∉ reached

theorem Unblocked.mono {names : List TableName} {others others' : List Predicate}
    (h : p.Unblocked names others) (hsub : ∀ q ∈ others', q ∈ others) : p.Unblocked names others' :=
  ⟨h.present, fun q hq => h.unsplit q (hsub q hq), h.hasLeft,
    fun right hr id hid q hq => h.emptied right hr id hid q (hsub q hq),
    fun hr reached hw q hq => h.waited hr reached hw q (hsub q hq)⟩

end Predicate

/-- What holds of the assemblies and the pending predicates all through a building. -/
structure Assembly.Sound (relations : List Relation) (as : List Assembly) (pending : List Predicate) :
    Prop where
  relations : (as.flatMap Assembly.relations).Perm relations
  unsplit : ∀ q ∈ pending, ∀ right, q.rightTables = some right → ∀ a ∈ as, a.tables.Unsplit right

namespace Assembly.Sound

variable {relations : List Relation} {as : List Assembly} {pending others : List Predicate} {p : Predicate}

theorem exists_mem_tables (h : Sound relations as pending) {t : TableName}
    (ht : t ∈ relations.map (·.name)) : ∃ a ∈ as, t ∈ a.tables := by
  obtain ⟨r, hr, rfl⟩ := List.mem_map.1 ht
  obtain ⟨a, ha, hr⟩ := List.mem_flatMap.1 (h.relations.mem_iff.2 hr)
  exact ⟨a, ha, mem_tables.2 (List.mem_map_of_mem hr)⟩

theorem exists_touched (h : Sound relations as pending) {t : TableName} (hn : t ∈ relations.map (·.name))
    (ht : t ∈ p.tables) : ∃ a ∈ as.filter (·.touches p), t ∈ a.tables := by
  obtain ⟨a, ha, hta⟩ := h.exists_mem_tables hn
  exact ⟨a, List.mem_filter.2 ⟨ha, touches_iff.2 ⟨t, hta, ht⟩⟩, hta⟩

theorem mem_names (h : Sound relations as pending) {a : Assembly} (ha : a ∈ as) {t : TableName}
    (ht : t ∈ a.tables) : t ∈ relations.map (·.name) := by
  obtain ⟨r, hr, rfl⟩ := List.mem_map.1 (mem_tables.1 ht)
  exact List.mem_map_of_mem (h.relations.mem_iff.1 (List.mem_flatMap.2 ⟨a, ha, hr⟩))

theorem mem_covered_of_mem (h : Sound relations as pending) {t : TableName}
    (hn : t ∈ relations.map (·.name)) (ht : t ∈ p.tables) : t ∈ p.covered (as.map fragment) := by
  obtain ⟨a, ha, hta⟩ := h.exists_touched hn ht
  obtain ⟨ha, htouch⟩ := List.mem_filter.1 ha
  exact Predicate.mem_covered.2 ⟨a, ha, htouch, hta⟩

theorem covered_unsplit_iff (h : Sound relations as pending)
    (present : ∀ t ∈ p.tables, t ∈ relations.map (·.name)) {right : TableSet}
    (hr : ∀ a ∈ as, a.tables.Unsplit right) :
    (p.covered (as.map fragment)).Unsplit right ↔ p.tables.Unsplit right := by
  constructor
  · exact Or.imp (fun hc t ht => hc t (h.mem_covered_of_mem (present t ht) ht))
      (fun hc t ht => hc t (h.mem_covered_of_mem (present t ht) ht))
  · refine Or.imp (fun hp t ht => ?_) (fun hp t ht => ?_)
    · obtain ⟨a, ha, htouch, hta⟩ := Predicate.mem_covered.1 ht
      obtain ⟨u, hu, hup⟩ := touches_iff.1 htouch
      exact (hr a ha).mem_of_mem hu (hp u hup) hta
    · obtain ⟨a, ha, htouch, hta⟩ := Predicate.mem_covered.1 ht
      obtain ⟨u, hu, hup⟩ := touches_iff.1 htouch
      exact (hr a ha).not_mem_of_not_mem hu (hp u hup) hta

theorem isJoinReady_iff (h : Sound relations as pending)
    (present : ∀ t ∈ p.tables, t ∈ relations.map (·.name)) {right : TableSet}
    (hr : ∀ a ∈ as, a.tables.Unsplit right) :
    p.isJoinReady (as.map fragment) right others = true ↔
      (∃ t ∈ p.tables, t ∉ right) ∧ ∀ id, p.outerJoin = some id → ∀ q ∈ others, id ∉ q.inside := by
  have apart : (as.map fragment).all (fun f => f.tables.isDisjoint right || f.tables.isSubset right) =
      true := by
    rw [List.all_map, List.all_eq_true]
    intro a ha
    simp only [Function.comp_apply, Bool.or_eq_true, SortedSet.isDisjoint_iff, SortedSet.isSubset_iff]
    exact (hr a ha).symm
  have hasLeft : (as.map fragment).any (fun f => f.isTouchedBy p && !f.tables.isSubset right) = true ↔
      ∃ t ∈ p.tables, t ∉ right := by
    rw [List.any_map, List.any_eq_true]
    constructor
    · rintro ⟨a, ha, h⟩
      obtain ⟨htouch, hsub⟩ := Bool.and_eq_true_iff.1 h
      obtain ⟨t, hta, htp⟩ := touches_iff.1 htouch
      refine ⟨t, htp, fun ht => ?_⟩
      have : a.tables.isSubset right = true :=
        SortedSet.isSubset_iff.2 fun u hu => (hr a ha).mem_of_mem hta ht hu
      rw [Bool.not_eq_true'] at hsub
      exact absurd this (Bool.eq_false_iff.1 hsub)
    · rintro ⟨t, htp, ht⟩
      obtain ⟨a, ha, hta⟩ := h.exists_mem_tables (present t htp)
      refine ⟨a, ha, Bool.and_eq_true_iff.2 ⟨touches_iff.2 ⟨t, hta, htp⟩, ?_⟩⟩
      rw [Bool.not_eq_true', Bool.eq_false_iff]
      exact fun hsub => ht (SortedSet.isSubset_iff.1 hsub t hta)
  have emptied : (!p.outerJoin.any fun id => others.any (·.inside.contains id)) = true ↔
      ∀ id, p.outerJoin = some id → ∀ q ∈ others, id ∉ q.inside := by
    cases p.outerJoin with
    | none => simp
    | some id => simp [SortedSet.contains_iff, ← Bool.not_eq_true]
  simp only [Predicate.isJoinReady, apart, Bool.true_and, Bool.and_eq_true, hasLeft, emptied]

theorem covers_iff (h : Sound relations as pending) :
    p.tables.isSubset (p.covered (as.map fragment)) = true ↔
      ∀ t ∈ p.tables, t ∈ relations.map (·.name) := by
  rw [SortedSet.isSubset_iff]
  refine ⟨fun hc t ht => ?_, fun hn t ht => h.mem_covered_of_mem (hn t ht) ht⟩
  obtain ⟨a, ha, -, hta⟩ := Predicate.mem_covered.1 (hc t ht)
  exact h.mem_names ha hta

theorem branches_unsplit_iff (h : Sound relations as pending)
    (present : ∀ t ∈ p.tables, t ∈ relations.map (·.name)) (hsub : ∀ q ∈ others, q ∈ pending) :
    ((others.filterMap Predicate.rightTables).all fun right =>
      (p.covered (as.map fragment)).isSubset right || (p.covered (as.map fragment)).isDisjoint right) =
        true ↔ ∀ q ∈ others, ∀ right, q.rightTables = some right → p.tables.Unsplit right := by
  rw [Predicate.all_branches_iff]
  refine forall₂_congr fun q hq => forall₂_congr fun right hr => ?_
  rw [Bool.or_eq_true, SortedSet.isSubset_iff, SortedSet.isDisjoint_iff]
  exact h.covered_unsplit_iff present (h.unsplit q (hsub q hq) right hr)

/-- Whether a predicate is ready depends on its own tables and on the other pending predicates. -/
theorem isReady_iff (h : Sound relations as pending) (hp : pending.Perm (p :: others)) :
    p.isReady (as.map fragment) others = true ↔ p.Unblocked (relations.map (·.name)) others := by
  have hsub : ∀ q ∈ others, q ∈ pending := fun q hq => hp.mem_iff.2 (.tail _ hq)
  have own : ∀ right, p.rightTables = some right → ∀ a ∈ as, a.tables.Unsplit right :=
    h.unsplit p (hp.mem_iff.2 (.head _))
  rw [Predicate.isReady, Bool.and_eq_true, Bool.and_eq_true, h.covers_iff]
  cases hr : p.rightTables with
  | some right =>
    constructor
    · rintro ⟨⟨hn, hs⟩, hw⟩
      obtain ⟨hl, he⟩ := (h.isJoinReady_iff hn (own right hr)).1 hw
      refine ⟨hn, (h.branches_unsplit_iff hn hsub).1 hs, ?_, ?_, fun hr' => ?_⟩
      · intro _ hr'; cases hr.symm.trans hr'; exact hl
      · intro _ hr'; cases hr.symm.trans hr'; exact he
      · cases hr.symm.trans hr'
    · intro hu
      exact ⟨⟨hu.present, (h.branches_unsplit_iff hu.present hsub).2 hu.unsplit⟩,
        (h.isJoinReady_iff hu.present (own right hr)).2 ⟨hu.hasLeft right hr, hu.emptied right hr⟩⟩
  | none =>
    constructor
    · rintro ⟨⟨hn, hs⟩, hw⟩
      refine ⟨hn, (h.branches_unsplit_iff hn hsub).1 hs, ?_, ?_, fun _ reached hreached => ?_⟩
      · intro _ hr'; cases hr.symm.trans hr'
      · intro _ hr'; cases hr.symm.trans hr'
      · rw [hreached] at hw
        simpa only [Predicate.all_branches_iff, SortedSet.isDisjoint_iff] using hw
    · intro hu
      refine ⟨⟨hu.present, (h.branches_unsplit_iff hu.present hsub).2 hu.unsplit⟩, ?_⟩
      cases hw : p.waitsFor with
      | none => rfl
      | some reached =>
        simpa only [Predicate.all_branches_iff, SortedSet.isDisjoint_iff] using hu.waited hr reached hw

/-! ### Steps -/

theorem start (relations : List Relation) (pending : List Predicate) :
    Sound relations (relations.map relation) pending := by
  refine ⟨?_, fun q _ right _ a ha => ?_⟩
  · rw [List.flatMap_map]
    exact .of_eq (List.flatMap_singleton' relations)
  · obtain ⟨r, -, rfl⟩ := List.mem_map.1 ha
    by_cases hr : r.name ∈ right
    · exact .inl fun t ht => by simp_all [Assembly.relations]
    · exact .inr fun t ht => by simp_all [Assembly.relations]

theorem apply (h : Sound relations as pending) (hp : pending.Perm (p :: others))
    (hu : p.Unblocked (relations.map (·.name)) others) {a : Assembly}
    (ha : p.Fuses (as.filter (·.touches p)) a) :
    Sound relations (as.filter (!·.touches p) ++ [a]) others := by
  refine ⟨?_, fun q hq right hr b hb => ?_⟩
  · rw [List.flatMap_append, List.flatMap_singleton]
    refine ((ha.relations_perm.append_left _).trans ?_).trans h.relations
    rw [← List.flatMap_append]
    exact (filter_not_append_filter_perm (·.touches p) as).flatMap_right _
  · have hall := h.unsplit q (hp.mem_iff.2 (.tail _ hq)) right hr
    rcases List.mem_append.1 hb with hb | hb
    · exact hall b (List.mem_of_mem_filter hb)
    · obtain rfl := List.mem_singleton.1 hb
      have hc := (h.covered_unsplit_iff hu.present hall).2 (hu.unsplit q hq right hr)
      have hmem : ∀ t, t ∈ b.tables ↔ t ∈ p.covered (as.map fragment) := by
        intro t
        rw [ha.mem_tables, Predicate.mem_covered]
        simp only [List.mem_filter, and_assoc]
      simpa only [SortedSet.Unsplit, hmem] using hc

end Assembly.Sound

namespace Assembly.Reached

variable {relations : List Relation} {predicates pending : List Predicate} {as : List Assembly}

theorem sound (h : Reached relations predicates as pending) : Sound relations as pending := by
  induction h with
  | start => exact .start _ _
  | apply h hp ready fuses ih =>
    have hperm := Predicate.perm_of_mem_splits hp
    exact ih.apply hperm ((ih.isReady_iff hperm).1 ready) fuses

/-- Every predicate is applied once or pending. -/
theorem predicates_perm (h : Reached relations predicates as pending) :
    (as.flatMap Assembly.predicates ++ pending).Perm predicates := by
  induction h with
  | start =>
    have : (relations.map relation).flatMap Assembly.predicates = [] := by
      rw [List.flatMap_map]
      exact List.flatMap_eq_nil_iff.2 fun r _ => rfl
    rw [this, List.nil_append]
  | @apply as pending others p a h hp ready fuses ih =>
    refine List.Perm.trans ?_ ih
    rw [List.flatMap_append, List.flatMap_singleton]
    have hsplit : (as.filter (!·.touches p)).flatMap Assembly.predicates ++
        (as.filter (·.touches p)).flatMap Assembly.predicates |>.Perm
          (as.flatMap Assembly.predicates) := by
      rw [← List.flatMap_append]
      exact (filter_not_append_filter_perm (·.touches p) as).flatMap_right _
    calc (as.filter (!·.touches p)).flatMap Assembly.predicates ++ a.predicates ++ others
      _ |>.Perm ((as.filter (!·.touches p)).flatMap Assembly.predicates ++
          (p :: (as.filter (·.touches p)).flatMap Assembly.predicates) ++ others) :=
        (fuses.predicates_perm.append_left _).append_right _
      _ |>.Perm (p :: (as.flatMap Assembly.predicates ++ others)) := by
        rw [List.append_assoc, List.cons_append]
        refine List.perm_middle.trans (.cons p ?_)
        rw [← List.append_assoc]
        exact hsplit.append_right _
      _ |>.Perm (as.flatMap Assembly.predicates ++ (p :: others)) := List.perm_middle.symm
      _ |>.Perm (as.flatMap Assembly.predicates ++ pending) :=
        (Predicate.perm_of_mem_splits hp).symm.append_left _

end Assembly.Reached

end JoinPlanner
