import JoinPlanner.Cost.Relation
import JoinPlanner.Proofs.Expr.Conjunction
import JoinPlanner.Proofs.Lists

/-!
# What a simple relation says

A condition is a simple relation between two disjoint sets of tables exactly if every conjunct of it
compares an expression over the one with an expression over the other, by equality when there are
several. The relation means what the condition means, in three-valued logic and for every row, and
seen from the other side it is the same relation the other way round
(`SimpleRelation.detect_exact`).
-/

namespace JoinPlanner

/-- The expression reads tables, all of them among the given ones. -/
def Expr.ReadsWithin (e : Expr) (tables : TableSet) : Prop := (∃ t, t ∈ e.tables) ∧ ∀ t ∈ e.tables, t ∈ tables

namespace SimpleRelation

/-- The condition that the relation stands for. -/
def condition (relation : SimpleRelation) : Expr :=
  .conjunction (relation.operands.map fun (a, b) => .compare relation.op a b)

/-- The relation seen from its other side. -/
def swap (relation : SimpleRelation) : SimpleRelation :=
  ⟨relation.op.swap, relation.operands.map Prod.swap⟩

/-- The term compares an expression over the one side with one over the other, either of them first. -/
def Relates (left right : TableSet) (op : Comparison) (e : Expr) : Prop :=
  ∃ a b, e = .compare op a b ∧
    (a.ReadsWithin left ∧ b.ReadsWithin right ∨ a.ReadsWithin right ∧ b.ReadsWithin left)

variable {left right : TableSet} {e filter a b : Expr} {op : Comparison} {relation : SimpleRelation}

theorem readsOnly_iff {tables : TableSet} : readsOnly e tables = true ↔ e.ReadsWithin tables := by
  rw [readsOnly, Bool.and_eq_true, Bool.not_eq_true', SortedSet.isEmpty_eq_false_iff, SortedSet.isSubset_iff]
  rfl

theorem not_readsWithin_of_isDisjoint (h : left.isDisjoint right = true) (hl : e.ReadsWithin left) :
    ¬ e.ReadsWithin right := by
  obtain ⟨⟨t, ht⟩, hleft⟩ := hl
  exact fun hr => SortedSet.isDisjoint_iff.1 h t (hleft t ht) (hr.2 t ht)

theorem orient?_compare (op : Comparison) (a b : Expr) : orient? left right (.compare op a b) =
    if readsOnly a left && readsOnly b right then some (op, a, b)
    else if readsOnly a right && readsOnly b left then some (op.swap, b, a) else none := rfl

theorem orient?_of_forall_ne (h : ∀ op a b, e ≠ .compare op a b) : orient? left right e = none := by
  unfold orient? Expr.comparison?
  split
  · next hsome =>
    split at hsome
    · exact absurd rfl (h _ _ _)
    · cases hsome
  · rfl

/-- An oriented term reads the left side on its left, and is the term as it stands or turned around. -/
theorem of_orient? (h : orient? left right e = some (op, a, b)) :
    a.ReadsWithin left ∧ b.ReadsWithin right ∧ (e = .compare op a b ∨ ∃ op', op = op'.swap ∧ e = .compare op' b a) := by
  by_cases hcompare : ∃ op a b, e = .compare op a b
  · obtain ⟨op', a', b', rfl⟩ := hcompare
    rw [orient?_compare] at h
    split at h
    · next hreads =>
      cases h
      rw [Bool.and_eq_true, readsOnly_iff, readsOnly_iff] at hreads
      exact ⟨hreads.1, hreads.2, .inl rfl⟩
    · split at h
      · next hreads =>
        cases h
        rw [Bool.and_eq_true, readsOnly_iff, readsOnly_iff] at hreads
        exact ⟨hreads.2, hreads.1, .inr ⟨op', rfl, rfl⟩⟩
      · cases h
  · rw [orient?_of_forall_ne fun op a b he => hcompare ⟨op, a, b, he⟩] at h
    cases h

theorem evalIn_of_orient? {v : Valuation} (h : orient? left right e = some (op, a, b)) :
    (Expr.compare op a b).evalIn v = e.evalIn v := by
  obtain ⟨-, -, rfl | ⟨op', rfl, rfl⟩⟩ := of_orient? h
  · rfl
  · exact Expr.evalIn_compare_swap op' a b

theorem orient?_of_relates (h : Relates left right op e) :
    ∃ p, orient? left right e = some (op, p) ∨ orient? left right e = some (op.swap, p) := by
  obtain ⟨a, b, rfl, h⟩ := h
  simp only [← readsOnly_iff, ← Bool.and_eq_true] at h
  by_cases hlr : (readsOnly a left && readsOnly b right) = true
  · exact ⟨(a, b), .inl (by rw [orient?_compare, if_pos hlr])⟩
  · exact ⟨(b, a), .inr (by rw [orient?_compare, if_neg hlr, if_pos (h.resolve_left hlr)])⟩

theorem relates_of_orient? {p : Expr × Expr} (h : orient? left right e = some (op, p)) :
    Relates left right op e ∨ Relates left right op.swap e := by
  obtain ⟨ha, hb, rfl | ⟨op', rfl, rfl⟩⟩ := of_orient? h
  · exact .inl ⟨_, _, rfl, .inl ⟨ha, hb⟩⟩
  · exact .inr ⟨_, _, by rw [Comparison.swap_swap], .inr ⟨hb, ha⟩⟩

theorem isSome_orient? : (orient? left right e).isSome = true ↔ ∃ op, Relates left right op e := by
  rw [Option.isSome_iff_exists]
  constructor
  · rintro ⟨⟨op, p⟩, h⟩
    exact (relates_of_orient? h).elim (⟨op, ·⟩) (⟨op.swap, ·⟩)
  · rintro ⟨op, h⟩
    obtain ⟨p, h | h⟩ := orient?_of_relates h <;> exact ⟨_, h⟩

theorem equality?_eq_some {p : Expr × Expr} :
    equality? left right e = some p ↔ orient? left right e = some (.eq, p) := by
  unfold equality?
  split
  · next h => simp [h]
  · next hne => exact ⟨nofun, fun h => (hne p h).elim⟩

theorem isSome_equality? : (equality? left right e).isSome = true ↔ Relates left right .eq e := by
  simp only [Option.isSome_iff_exists, equality?_eq_some]
  constructor
  · rintro ⟨p, h⟩
    exact (relates_of_orient? h).elim id id
  · intro h
    obtain ⟨p, h | h⟩ := orient?_of_relates h <;> exact ⟨p, h⟩

/-- Seen from the other side a term has its operands exchanged, under the reversed operator. -/
theorem orient?_comm (hdisjoint : left.isDisjoint right = true) (e : Expr) :
    orient? right left e = (orient? left right e).map fun (op, a, b) => (op.swap, b, a) := by
  by_cases hcompare : ∃ op a b, e = .compare op a b
  · obtain ⟨op, a, b, rfl⟩ := hcompare
    rw [orient?_compare, orient?_compare]
    cases hlr : readsOnly a left && readsOnly b right <;> cases hrl : readsOnly a right && readsOnly b left
    · rfl
    · simp
    · rfl
    · rw [Bool.and_eq_true, readsOnly_iff] at hlr hrl
      exact absurd hrl.1 (not_readsWithin_of_isDisjoint hdisjoint hlr.1)
  · have hne (op : Comparison) (a b : Expr) : e ≠ .compare op a b := fun he => hcompare ⟨op, a, b, he⟩
    rw [orient?_of_forall_ne hne, orient?_of_forall_ne hne]
    rfl

theorem equality?_comm (hdisjoint : left.isDisjoint right = true) (e : Expr) :
    equality? right left e = (equality? left right e).map Prod.swap := by
  ext p
  rw [Option.map_eq_some_iff]
  simp only [equality?_eq_some, orient?_comm hdisjoint e, Option.map_eq_some_iff]
  constructor
  · rintro ⟨⟨op, a, b⟩, h, hp⟩
    obtain ⟨hop, rfl⟩ := Prod.mk.inj hp
    obtain rfl : op = .eq := by cases op <;> first | rfl | cases hop
    exact ⟨(a, b), h, rfl⟩
  · rintro ⟨⟨a, b⟩, h, rfl⟩
    exact ⟨_, h, rfl⟩

theorem detect_nil (h : filter.conjuncts = []) : detect filter left right = none := by
  rw [detect, h]

theorem detect_singleton (h : filter.conjuncts = [e]) : detect filter left right =
    (orient? left right e).map fun (op, operands) => ⟨op, [operands]⟩ := by
  rw [detect, h]

theorem detect_of_length (h : 1 < filter.conjuncts.length) : detect filter left right =
    (filter.conjuncts.mapM (equality? left right)).map fun operands => ⟨.eq, operands⟩ := by
  unfold detect
  split
  · next hterms => rw [hterms] at h; cases h
  · next hterms => rw [hterms] at h; exact absurd h (Nat.lt_irrefl 1)
  · rfl

/-- There are no conjuncts, there is one, or there are several. -/
theorem conjuncts_cases (filter : Expr) :
    filter.conjuncts = [] ∨ (∃ e, filter.conjuncts = [e]) ∨ 1 < filter.conjuncts.length := by
  match filter.conjuncts with
  | [] => exact .inl rfl
  | [e] => exact .inr (.inl ⟨e, rfl⟩)
  | _ :: _ :: _ => exact .inr (.inr (by simp))

/-- A relation is found in a nonempty condition of terms that relate the sides, by equality if there are several. -/
theorem isSome_detect : (detect filter left right).isSome = true ↔ filter.conjuncts ≠ [] ∧
    ∀ e ∈ filter.conjuncts, ∃ op, Relates left right op e ∧ (1 < filter.conjuncts.length → op = .eq) := by
  rcases conjuncts_cases filter with h | ⟨e, h⟩ | h
  · simp [detect_nil h, h]
  · rw [detect_singleton h, Option.isSome_map, isSome_orient?, h]
    simp
  · rw [detect_of_length h, Option.isSome_map, isSome_mapM]
    simp only [isSome_equality?, h, forall_const, exists_eq_right]
    exact (and_iff_right (List.ne_nil_of_length_pos (by omega))).symm

/-- The operands of a relation come from the conjuncts one by one. -/
theorem forall₂_of_detect (h : detect filter left right = some relation) :
    List.Forall₂ (fun e p => orient? left right e = some (relation.op, p)) filter.conjuncts relation.operands := by
  rcases conjuncts_cases filter with hterms | ⟨e, hterms⟩ | hterms
  · rw [detect_nil hterms] at h
    cases h
  · rw [detect_singleton hterms] at h
    obtain ⟨⟨op, p⟩, horient, rfl⟩ := Option.map_eq_some_iff.1 h
    rw [hterms]
    exact .cons horient .nil
  · rw [detect_of_length hterms] at h
    obtain ⟨operands, hmap, rfl⟩ := Option.map_eq_some_iff.1 h
    exact (mapM_eq_some_iff.1 hmap).imp fun _ _ => equality?_eq_some.1

theorem conjuncts_condition (relation : SimpleRelation) : relation.condition.conjuncts =
    relation.operands.map fun (a, b) => .compare relation.op a b := by
  refine Expr.conjuncts_conjunction fun e he => ?_
  obtain ⟨p, -, rfl⟩ := List.mem_map.1 he
  rfl

theorem evalIn_condition (h : detect filter left right = some relation) (v : Valuation) :
    relation.condition.evalIn v = filter.evalIn v := by
  have hterms := forall₂_of_detect h
  have hcondition : ∀ c ∈ relation.condition.conjuncts, ∃ op a b, c = .compare op a b := by
    rw [conjuncts_condition]
    intro c hc
    obtain ⟨p, -, rfl⟩ := List.mem_map.1 hc
    exact ⟨_, _, _, rfl⟩
  have hfilter : ∀ c ∈ filter.conjuncts, ∃ op a b, c = .compare op a b := by
    intro c hc
    obtain ⟨p, -, hp⟩ := exists_of_forall₂ hterms.flip hc
    obtain ⟨-, -, hcompare | ⟨op, -, hcompare⟩⟩ := of_orient? hp <;> exact ⟨_, _, _, hcompare⟩
  have hvalues : (relation.operands.map fun (a, b) => Expr.compare relation.op a b).map (Expr.evalIn v) =
      filter.conjuncts.map (Expr.evalIn v) := by
    rw [← List.forall₂_eq_eq_eq, List.forall₂_map_left_iff, List.forall₂_map_left_iff, List.forall₂_map_right_iff]
    exact hterms.flip.imp fun _ _ => evalIn_of_orient?
  rw [Expr.evalIn_conjuncts hcondition, Expr.evalIn_conjuncts hfilter, conjuncts_condition,
    Expr.evalList_congr hvalues]

theorem readsWithin_of_detect (h : detect filter left right = some relation) :
    ∀ p ∈ relation.operands, p.1.ReadsWithin left ∧ p.2.ReadsWithin right := by
  intro p hp
  obtain ⟨e, -, he⟩ := exists_of_forall₂ (forall₂_of_detect h) hp
  exact ⟨(of_orient? he).1, (of_orient? he).2.1⟩

theorem mapM_equality?_comm (hdisjoint : left.isDisjoint right = true) (terms : List Expr) :
    terms.mapM (equality? right left) = (terms.mapM (equality? left right)).map (List.map Prod.swap) := by
  induction terms with
  | nil => rfl
  | cons e terms ih =>
    rw [List.mapM_cons, List.mapM_cons, ih, equality?_comm hdisjoint]
    cases equality? left right e <;> cases terms.mapM (equality? left right) <;> rfl

theorem detect_comm (hdisjoint : left.isDisjoint right = true) :
    detect filter right left = (detect filter left right).map swap := by
  rcases conjuncts_cases filter with h | ⟨e, h⟩ | h
  · rw [detect_nil h, detect_nil h]
    rfl
  · rw [detect_singleton h, detect_singleton h, orient?_comm hdisjoint, Option.map_map, Option.map_map]
    rfl
  · rw [detect_of_length h, detect_of_length h, mapM_equality?_comm hdisjoint, Option.map_map, Option.map_map]
    rfl

/-- A simple relation is found exactly in the conditions that are one, says what the condition says, and is the
same from both sides. -/
theorem detect_exact (hdisjoint : left.isDisjoint right = true) :
    ((detect filter left right).isSome = true ↔ filter.conjuncts ≠ [] ∧
      ∀ e ∈ filter.conjuncts, ∃ op, Relates left right op e ∧ (1 < filter.conjuncts.length → op = .eq)) ∧
    (∀ relation, detect filter left right = some relation →
      (∀ p ∈ relation.operands, p.1.ReadsWithin left ∧ p.2.ReadsWithin right) ∧
      ∀ v, relation.condition.evalIn v = filter.evalIn v) ∧
    detect filter right left = (detect filter left right).map swap :=
  ⟨isSome_detect, fun _ h => ⟨readsWithin_of_detect h, evalIn_condition h⟩, detect_comm hdisjoint⟩

/-- `b.x = a.x AND (a.y = b.y)`, with `b` on the left of the first term. -/
def nestedEqualities : Expr :=
  let column (table name : String) : Expr := .column ⟨⟨none, table⟩, name⟩
  .apply .and [.equals (column "b" "x") (column "a" "x"), .apply .and [.equals (column "a" "y") (column "b" "y")]]

theorem detect_nestedEqualities :
    let column (table name : String) : Expr := .column ⟨⟨none, table⟩, name⟩
    detect nestedEqualities (.singleton ⟨none, "b"⟩) (.singleton ⟨none, "a"⟩) =
      some ⟨.eq, [(column "b" "x", column "a" "x"), (column "b" "y", column "a" "y")]⟩ := by
  intro column
  have hfound : detect nestedEqualities (.singleton ⟨none, "a"⟩) (.singleton ⟨none, "b"⟩) =
      some ⟨.eq, [(column "a" "x", column "b" "x"), (column "a" "y", column "b" "y")]⟩ := by
    cbv
  rw [(detect_exact (by decide +kernel)).2.2, hfound]
  rfl

end SimpleRelation

end JoinPlanner
