import JoinPlanner.Proofs.Lists
import JoinPlanner.Proofs.Predicate.Pool

/-!
# What shares an entry of the pool

Two predicates may be merged if and only if they have one key (`Predicate.canMerge_iff`), and merging keeps the key.
So merging into the first predicate that allows it leaves one entry for every key, made of all predicates of that key,
and the predicates without a key as they were added (`Predicate.Grouped`). In this the order of adding does not matter
(`PoolCall.pool_saturated`).
-/

namespace JoinPlanner

open JoinPlanner.Expr

namespace Predicate

/-- What the predicates have in common that are merged: their relations, and the outer joins inside of which and
after which they are applied. -/
abbrev MergeKey := TableSet × SortedSet Nat × Option TableSet

def mergeKey? (p : Predicate) : Option MergeKey :=
  if !p.exclusive && !p.tables.isEmpty && p.condition.isSimpleEquality then some (p.tables, p.inside, p.waitsFor)
  else none

variable {p q : Predicate} {key : MergeKey} {parts parts' pool pool' : List Predicate}

theorem mergeKey?_eq_some : p.mergeKey? = some key ↔
    (p.exclusive = false ∧ p.tables.isEmpty = false ∧ p.condition.isSimpleEquality = true) ∧
      (p.tables, p.inside, p.waitsFor) = key := by
  unfold mergeKey?
  cases p.exclusive <;> cases p.tables.isEmpty <;> cases p.condition.isSimpleEquality <;> simp

/-- To be mergeable is to have one key. -/
theorem canMerge_iff : p.canMerge q = true ↔ ∃ key, p.mergeKey? = some key ∧ q.mergeKey? = some key := by
  simp only [mergeKey?_eq_some, canMerge, Bool.and_eq_true, Bool.not_eq_true', decide_eq_true_eq]
  constructor
  · rintro ⟨⟨⟨⟨⟨⟨⟨hp, hq⟩, hne⟩, htables⟩, hinside⟩, hwaits⟩, hsp⟩, hsq⟩
    exact ⟨_, ⟨⟨hp, hne, hsp⟩, rfl⟩, ⟨hq, htables ▸ hne, hsq⟩, by rw [htables, hinside, hwaits]⟩
  · rintro ⟨_, ⟨⟨hp, hne, hsp⟩, rfl⟩, ⟨hq, -, hsq⟩, heq⟩
    obtain ⟨htables, hrest⟩ := Prod.mk.inj heq
    obtain ⟨hinside, hwaits⟩ := Prod.mk.inj hrest
    exact ⟨⟨⟨⟨⟨⟨⟨hp, hq⟩, hne⟩, htables.symm⟩, hinside.symm⟩, hwaits.symm⟩, hsp⟩, hsq⟩

theorem canMerge_iff_of_mergeKey? (hq : q.mergeKey? = some key) : q.canMerge p = true ↔ p.mergeKey? = some key := by
  rw [canMerge_iff]
  exact ⟨fun ⟨_, hq', hp⟩ => Option.some.inj (hq'.symm.trans hq) ▸ hp, fun hp => ⟨key, hq, hp⟩⟩

theorem mergeKey?_ne_of_canMerge_eq_false (hq : q.mergeKey? = some key) (h : q.canMerge p = false) :
    p.mergeKey? ≠ some key :=
  fun hp => Bool.false_ne_true (h.symm.trans (canMerge_iff.2 ⟨key, hq, hp⟩))

theorem isSimpleEquality_merge (hp : p.condition.isSimpleEquality = true) (hq : q.condition.isSimpleEquality = true) :
    (p.merge q).condition.isSimpleEquality = true := by
  unfold isSimpleEquality at *
  rw [conjuncts_merge, List.all_append, hp, hq]
  rfl

theorem mergeKey?_merge (h : p.canMerge q = true) : (p.merge q).mergeKey? = p.mergeKey? := by
  obtain ⟨key, hp, hq⟩ := canMerge_iff.1 h
  obtain ⟨⟨hexclusive, hne, hsp⟩, hkey⟩ := mergeKey?_eq_some.1 hp
  obtain ⟨⟨-, -, hsq⟩, -⟩ := mergeKey?_eq_some.1 hq
  rw [hp]
  exact mergeKey?_eq_some.2 ⟨⟨hexclusive, hne, isSimpleEquality_merge hsp hsq⟩, hkey⟩

/-- The parts of a key, in the order of adding. -/
def partsOf (parts : List Predicate) (key : MergeKey) : List Predicate := parts.filter (·.mergeKey? = some key)

/-- The pool of some parts: those without a key stand in it as they are, and for every key there is one entry, made of
all parts of that key. -/
structure Grouped (parts pool : List Predicate) : Prop where
  unmerged : pool.filter (·.mergeKey? = none) = parts.filter (·.mergeKey? = none)
  nodup : (pool.filterMap mergeKey?).Nodup
  mem_keys : ∀ key, key ∈ pool.filterMap mergeKey? ↔ key ∈ parts.filterMap mergeKey?
  conjuncts : ∀ q ∈ pool, ∀ key, q.mergeKey? = some key →
    q.condition.conjuncts = (partsOf parts key).flatMap (·.condition.conjuncts)

theorem partsOf_append (key : MergeKey) : partsOf (parts ++ [p]) key =
    partsOf parts key ++ if p.mergeKey? = some key then [p] else [] := by
  rw [partsOf, partsOf, List.filter_append, List.filter_singleton]
  cases hp : decide (p.mergeKey? = some key) with
  | true => rw [if_pos (of_decide_eq_true hp)]; rfl
  | false => rw [if_neg (of_decide_eq_false hp)]; rfl

theorem partsOf_eq_nil (h : key ∉ parts.filterMap mergeKey?) : partsOf parts key = [] :=
  List.filter_eq_nil_iff.2 fun q hq hkey => h (List.mem_filterMap.2 ⟨q, hq, of_decide_eq_true hkey⟩)

namespace Grouped

theorem nil : Grouped [] [] where
  unmerged := rfl
  nodup := .nil
  mem_keys _ := .rfl
  conjuncts _ hq := absurd hq List.not_mem_nil

/-- A part that no entry may be merged with becomes an entry. -/
theorem append (h : Grouped parts pool) (hnone : ∀ q ∈ pool, q.canMerge p = false) :
    Grouped (parts ++ [p]) (pool ++ [p]) where
  unmerged := by rw [List.filter_append, List.filter_append, h.unmerged]
  nodup := by
    rw [List.filterMap_append]
    refine List.nodup_append'.2 ⟨h.nodup, ?_, fun key hkey hp => ?_⟩
    · cases hp : p.mergeKey? <;> simp [hp]
    · obtain ⟨q, hq, hqkey⟩ := List.mem_filterMap.1 hkey
      obtain ⟨p', hp', hpkey⟩ := List.mem_filterMap.1 hp
      obtain rfl := List.mem_singleton.1 hp'
      exact mergeKey?_ne_of_canMerge_eq_false hqkey (hnone q hq) hpkey
  mem_keys key := by rw [List.filterMap_append, List.filterMap_append, List.mem_append, List.mem_append, h.mem_keys]
  conjuncts q hq key hkey := by
    rw [partsOf_append]
    rcases List.mem_append.1 hq with hq | hq
    · rw [if_neg (mergeKey?_ne_of_canMerge_eq_false hkey (hnone q hq)), List.append_nil, h.conjuncts q hq key hkey]
    · obtain rfl := List.mem_singleton.1 hq
      have hnew : key ∉ parts.filterMap mergeKey? := fun hmem => by
        obtain ⟨r, hr, hrkey⟩ := List.mem_filterMap.1 ((h.mem_keys key).2 hmem)
        exact mergeKey?_ne_of_canMerge_eq_false hrkey (hnone r hr) hkey
      rw [if_pos hkey, partsOf_eq_nil hnew, List.nil_append, List.flatMap_singleton]

/-- A part that an entry may be merged with is one more part of its key. -/
theorem merge {before after : List Predicate} (h : Grouped parts (before ++ q :: after)) (hq : q.canMerge p = true) :
    Grouped (parts ++ [p]) (before ++ q.merge p :: after) := by
  obtain ⟨key, hqkey, hpkey⟩ := canMerge_iff.1 hq
  have hmkey : (q.merge p).mergeKey? = some key := (mergeKey?_merge hq).trans hqkey
  have hkeys : (before ++ q.merge p :: after).filterMap mergeKey? = (before ++ q :: after).filterMap mergeKey? := by
    simp only [List.filterMap_append, List.filterMap_cons, hmkey, hqkey]
  refine ⟨?_, hkeys ▸ h.nodup, fun key' => ?_, fun x hx key' hkey' => ?_⟩
  · rw [List.filter_append, List.filter_append, ← h.unmerged, List.filter_append]
    simp [hmkey, hqkey, hpkey]
  · have hold : key ∈ parts.filterMap mergeKey? :=
      (h.mem_keys key).1 (List.mem_filterMap.2 ⟨q, List.mem_append_right _ (.head _), hqkey⟩)
    rw [hkeys, h.mem_keys, List.filterMap_append, List.mem_append]
    refine ⟨.inl, fun h => h.elim id fun hp => ?_⟩
    obtain ⟨p', hp', hp'key⟩ := List.mem_filterMap.1 hp
    obtain rfl := List.mem_singleton.1 hp'
    exact Option.some.inj (hpkey.symm.trans hp'key) ▸ hold
  · rw [partsOf_append]
    have hothers : x ∈ before ∨ x ∈ after → x.condition.conjuncts =
        (partsOf parts key' ++ if p.mergeKey? = some key' then [p] else []).flatMap (·.condition.conjuncts) := by
      intro hx
      have hne : key' ≠ key := by
        rintro rfl
        have hnodup := h.nodup
        rw [List.filterMap_append, List.filterMap_cons, hqkey, List.nodup_middle, List.nodup_cons] at hnodup
        exact hnodup.1 (List.mem_append.2 (hx.imp (fun hx => List.mem_filterMap.2 ⟨x, hx, hkey'⟩)
          fun hx => List.mem_filterMap.2 ⟨x, hx, hkey'⟩))
      have hmem : x ∈ before ++ q :: after :=
        List.mem_append.2 (hx.imp id (List.mem_cons_of_mem q))
      rw [hpkey, if_neg fun h => hne (Option.some.inj h).symm, List.append_nil, h.conjuncts x hmem key' hkey']
    rcases List.mem_append.1 hx with hx | hx
    · exact hothers (.inl hx)
    · rcases List.mem_cons.1 hx with rfl | hx
      · obtain rfl : key = key' := Option.some.inj (hmkey.symm.trans hkey')
        rw [conjuncts_merge, h.conjuncts q (List.mem_append_right _ (.head _)) key hqkey, if_pos hpkey,
          List.flatMap_append, List.flatMap_singleton]
      · exact hothers (.inr hx)

theorem addTo (h : Grouped parts pool) (p : Predicate) : Grouped (parts ++ [p]) (p.addTo pool) := by
  rcases addTo_cases p pool with ⟨hnone, hadd⟩ | ⟨before, q, after, rfl, hq, hadd⟩ <;> rw [hadd]
  · exact h.append hnone
  · exact h.merge hq

theorem addAll (h : Grouped parts pool) (more : List Predicate) : Grouped (parts ++ more) (addAll more pool) := by
  induction more generalizing parts pool with
  | nil => rw [List.append_nil]; exact h
  | cons p rest ih =>
    have hrest := ih (h.addTo p)
    rwa [List.append_assoc] at hrest

/-- No two entries may be merged. -/
theorem saturated (h : Grouped parts pool) :
    pool.Pairwise fun p q => p.canMerge q = false ∧ q.canMerge p = false := by
  refine (List.pairwise_filterMap.1 h.nodup).imp fun {p q} hne => ⟨?_, ?_⟩ <;> refine Bool.eq_false_iff.2 fun hm => ?_
  · obtain ⟨key, hp, hq⟩ := canMerge_iff.1 hm
    exact hne key hp key hq rfl
  · obtain ⟨key, hq, hp⟩ := canMerge_iff.1 hm
    exact hne key hp key hq rfl

end Grouped

/-- The parts that an entry is made of: all that it may be merged with, or itself if it may be merged with nothing. -/
def origins (parts : List Predicate) (q : Predicate) : List Predicate :=
  if q.canMerge q then parts.filter (q.canMerge ·) else [q]

theorem origins_of_none (h : q.mergeKey? = none) : origins parts q = [q] := by
  refine if_neg fun hm => ?_
  obtain ⟨key, hq, -⟩ := canMerge_iff.1 hm
  rw [h] at hq
  cases hq

theorem origins_of_some (h : q.mergeKey? = some key) : origins parts q = partsOf parts key := by
  rw [origins, if_pos ((canMerge_iff_of_mergeKey? h).2 h), partsOf]
  exact List.filter_congr fun p _ => by rw [Bool.eq_iff_iff, canMerge_iff_of_mergeKey? h, decide_eq_true_eq]

namespace Grouped

/-- Every part is in one entry. -/
theorem origins_perm (h : Grouped parts pool) : (pool.flatMap (origins parts)).Perm parts := by
  have hkeys := map_perm_filterMap (f := mergeKey?) (g := origins parts) (G := partsOf parts) (l := pool)
    fun q _ key hq => origins_of_some hq
  have hsingle : (pool.filter (·.mergeKey? = none)).map (origins parts) =
      (parts.filter (·.mergeKey? = none)).map fun q => [q] := by
    rw [h.unmerged]
    exact List.map_congr_left fun q hq => origins_of_none (of_decide_eq_true (List.mem_filter.1 hq).2)
  have hflat := hkeys.flatten
  rw [hsingle, List.flatten_append, ← List.flatMap_def, ← List.flatMap_def, ← List.flatMap_def,
    List.flatMap_singleton'] at hflat
  refine hflat.trans (filter_append_flatMap_perm h.nodup fun p hp key hkey => ?_)
  exact (h.mem_keys key).2 (List.mem_filterMap.2 ⟨p, hp, hkey⟩)

theorem conjuncts_eq (h : Grouped parts pool) (hq : q ∈ pool) :
    q.condition.conjuncts = (origins parts q).flatMap (·.condition.conjuncts) := by
  cases hkey : q.mergeKey? with
  | none => rw [origins_of_none hkey, List.flatMap_singleton]
  | some key => rw [origins_of_some hkey, h.conjuncts q hq key hkey]

/-- The entries of two pools of the same parts correspond, whatever the order of adding. -/
theorem map_perm {γ : Type} {g g' : Predicate → γ} {G : MergeKey → γ} (h : Grouped parts pool)
    (h' : Grouped parts' pool') (hparts : parts'.Perm parts)
    (hsome : ∀ q ∈ pool, ∀ key, q.mergeKey? = some key → g q = G key)
    (hsome' : ∀ q ∈ pool', ∀ key, q.mergeKey? = some key → g' q = G key)
    (hnone : ∀ q, q.mergeKey? = none → g' q = g q) : (pool'.map g').Perm (pool.map g) := by
  have hkeys : (pool'.filterMap mergeKey?).Perm (pool.filterMap mergeKey?) := by
    refine (List.perm_ext_iff_of_nodup h'.nodup h.nodup).2 fun key => ?_
    rw [h.mem_keys, h'.mem_keys]
    exact (hparts.filterMap _).mem_iff
  have hsingle : ((pool'.filter (·.mergeKey? = none)).map g').Perm ((pool.filter (·.mergeKey? = none)).map g) := by
    have heq : (pool'.filter (·.mergeKey? = none)).map g' = (pool'.filter (·.mergeKey? = none)).map g :=
      List.map_congr_left fun q hq => hnone q (of_decide_eq_true (List.mem_filter.1 hq).2)
    rw [heq, h.unmerged, h'.unmerged]
    exact (hparts.filter _).map g
  calc (pool'.map g').Perm _ := map_perm_filterMap hsome'
    List.Perm _ _ := hsingle.append (hkeys.map G)
    List.Perm _ _ := (map_perm_filterMap hsome).symm

end Grouped

end Predicate

open Predicate

/-! ### Calls -/

/-- A call that adds to the pool: a filter inside of some outer joins, the condition of a join over its scope, or a
predicate. -/
inductive PoolCall
  | filter (condition : Expr) (inside : SortedSet Nat)
  | scopedFilter (condition : Expr) (inside : SortedSet Nat) (scope : TableSet)
  | predicate (p : Predicate)

namespace PoolCall

def perform (pool : List Predicate) : PoolCall → List Predicate
  | filter condition inside => addFilter condition inside pool
  | scopedFilter condition inside scope => addScopedFilter condition inside scope pool
  | predicate p => p.addTo pool

/-- The pool after some calls, from the empty one. -/
def pool (calls : List PoolCall) : List Predicate := calls.foldl perform []

/-- What a call adds, one predicate for every conjunct. -/
def added : PoolCall → List Predicate
  | filter condition inside => (termsOf condition).map (ofCondition · inside)
  | scopedFilter condition inside scope => (termsOf condition).map (ofScopedCondition · inside scope)
  | predicate p => [p]

/-- The predicates that some calls add, in order. -/
def parts (calls : List PoolCall) : List Predicate := calls.flatMap added

theorem perform_eq (pool : List Predicate) (call : PoolCall) : call.perform pool = addAll call.added pool := by
  cases call with
  | filter condition inside => exact addFilter_eq condition inside pool
  | scopedFilter condition inside scope => exact addScopedFilter_eq condition inside scope pool
  | predicate p => rfl

theorem pool_eq_addAll (calls : List PoolCall) : pool calls = addAll (parts calls) [] := by
  rw [parts, addAll_flatMap, pool]
  simp only [← perform_eq]

theorem grouped_pool (calls : List PoolCall) : Grouped (parts calls) (pool calls) := by
  rw [pool_eq_addAll]
  exact Grouped.nil.addAll (parts calls)

/-- After any calls no two entries may be merged. Every added predicate is in one entry, which has the conjuncts of
those that it is made of and nothing else, all inside of the same outer joins and over the same relations; those of
outer joins stand as they were added. What shares an entry, and which conjuncts an entry has, are the same for the
calls in any other order. -/
theorem pool_saturated (calls : List PoolCall) :
    (pool calls).Pairwise (fun p q => p.canMerge q = false ∧ q.canMerge p = false) ∧
    ((pool calls).flatMap (origins (parts calls))).Perm (parts calls) ∧
    (∀ q ∈ pool calls, q.condition.conjuncts = (origins (parts calls) q).flatMap (·.condition.conjuncts) ∧
      ∀ p ∈ origins (parts calls) q, p.inside = q.inside ∧ p.tables = q.tables) ∧
    (pool calls).filter (·.exclusive) = (parts calls).filter (·.exclusive) ∧
    ∀ calls' : List PoolCall, calls'.Perm calls →
      ((pool calls').map fun q => (origins (parts calls') q : Multiset Predicate)).Perm
        ((pool calls).map fun q => (origins (parts calls) q : Multiset Predicate)) ∧
      ((pool calls').map fun q => (q.condition.conjuncts : Multiset Expr)).Perm
        ((pool calls).map fun q => (q.condition.conjuncts : Multiset Expr)) := by
  have hgrouped := grouped_pool calls
  refine ⟨hgrouped.saturated, hgrouped.origins_perm, fun q hq => ⟨hgrouped.conjuncts_eq hq, fun p hp => ?_⟩, ?_,
    fun calls' hcalls => ?_⟩
  · rw [origins] at hp
    split at hp
    · obtain ⟨-, -, htables, hinside, -⟩ := of_canMerge (List.mem_filter.1 hp).2
      exact ⟨hinside.symm, htables.symm⟩
    · rw [List.mem_singleton.1 hp]
      exact ⟨rfl, rfl⟩
  · rw [pool_eq_addAll, addAll_filter_exclusive, List.nil_append]
  · have hgrouped' := grouped_pool calls'
    have hparts : (parts calls').Perm (parts calls) := hcalls.flatMap_right added
    have hpartsOf (key : MergeKey) : (partsOf (parts calls') key).Perm (partsOf (parts calls) key) := hparts.filter _
    constructor
    · refine hgrouped.map_perm (G := fun key => ↑(partsOf (parts calls) key)) hgrouped' hparts ?_ ?_ ?_
      · exact fun q _ key hq => by rw [origins_of_some hq]
      · exact fun q _ key hq => by rw [origins_of_some hq]; exact Multiset.coe_eq_coe.2 (hpartsOf key)
      · exact fun q hq => by rw [origins_of_none hq, origins_of_none hq]
    · refine hgrouped.map_perm (G := fun key => ↑((partsOf (parts calls) key).flatMap (·.condition.conjuncts)))
        hgrouped' hparts ?_ ?_ ?_
      · exact fun q hq key hkey => by rw [hgrouped.conjuncts q hq key hkey]
      · intro q hq key hkey
        rw [hgrouped'.conjuncts q hq key hkey]
        exact Multiset.coe_eq_coe.2 ((hpartsOf key).flatMap_right _)
      · exact fun _ _ => rfl

/-- Equalities of `a` and `b`: two of them above all outer joins, one in the right branch of an outer join, and one of
an outer join itself. -/
def fourEqualities : List PoolCall :=
  let equals (c : String) : Expr := .equals (.column ⟨⟨none, "a"⟩, c⟩) (.column ⟨⟨none, "b"⟩, c⟩)
  let join : OuterJoin := ⟨0, .singleton ⟨none, "a"⟩, .singleton ⟨none, "b"⟩, some (equals "x"), ∅⟩
  [.filter (equals "x") ∅, .predicate join.toPredicate, .filter (equals "y") (.singleton 0),
    .scopedFilter (equals "z") ∅ ∅]

/-- Only the two above all outer joins are merged, in any order of the calls. -/
theorem pool_saturated_fourEqualities : fourEqualities.reverse.Perm fourEqualities ∧
    (pool fourEqualities).map (fun q => (q.exclusive, q.inside.toList, q.condition.conjuncts.length)) =
      [(false, [], 2), (true, [], 1), (false, [0], 1)] ∧
    ((pool fourEqualities.reverse).map fun q => (q.condition.conjuncts : Multiset Expr)).Perm
      ((pool fourEqualities).map fun q => (q.condition.conjuncts : Multiset Expr)) := by
  have hperm : fourEqualities.reverse.Perm fourEqualities := fourEqualities.reverse_perm
  obtain ⟨-, -, -, -, horder⟩ := pool_saturated fourEqualities
  exact ⟨hperm, by decide +kernel, (horder _ hperm).2⟩

end PoolCall

end JoinPlanner
