import JoinPlanner.Proofs.Candidate.Assembly

/-!
# Runs of the builder

What the steps of a building return, whatever is drawn: `Predicate.applyTo_eq_ok` and
`Predicate.applyTo_isOk` for one predicate, `Problem.Reaches` for the states between the steps, and
`Problem.build_eq_ok` for the whole, in terms of assemblies.
-/

namespace JoinPlanner

theorem ok_of_isOk {ε α : Type} {x : Except ε α} (h : x.isOk = true) : ∃ a, x = .ok a := by
  cases x with
  | error e => cases h
  | ok a => exact ⟨a, rfl⟩

theorem exists_ok_of_any {ε α : Type} {x : Except ε α} {p : α → Bool} (h : x.toOption.any p = true) :
    ∃ a, x = .ok a ∧ p a = true := by
  cases x with
  | error e => cases h
  | ok a => exact ⟨a, rfl, h⟩

theorem exists_perm_map {α β : Type} {f : α → β} {l : List α} {m : List β} (h : m.Perm (l.map f)) :
    ∃ l' : List α, l'.Perm l ∧ m = l'.map f := by
  obtain ⟨l', hm, hl⟩ : Relation.Comp (· = List.map f ·) (·.Perm ·) m l := by
    rw [List.eq_map_comp_perm f]; exact h
  exact ⟨l', hl, hm⟩

theorem filterMap_range_getElem? {α : Type} (l : List α) : (List.range l.length).filterMap (l[·]?) = l := by
  induction l with
  | nil => rfl
  | cons a rest ih =>
    rw [List.length_cons, List.range_succ_eq_map, List.filterMap_cons, List.filterMap_map]
    exact congrArg (a :: ·) ih

variable {σ : Type}

theorem BuildM.run_bind_eq_ok {α β : Type} {x : BuildM σ α} {f : α → BuildM σ β} {s : σ} {r : β × σ} :
    (x >>= f).run s = .ok r ↔ ∃ a s', x.run s = .ok (a, s') ∧ (f a).run s' = .ok r := by
  show (Except.bind (x.run s) fun y => (f y.1).run y.2) = .ok r ↔ _
  cases h : x.run s with
  | error e => simp [Except.bind]
  | ok y =>
    obtain ⟨a, s'⟩ := y
    simp only [Except.bind, Except.ok.injEq, Prod.mk.injEq]
    exact ⟨fun h => ⟨a, s', ⟨rfl, rfl⟩, h⟩, by rintro ⟨_, _, ⟨rfl, rfl⟩, h⟩; exact h⟩

theorem BuildM.run_bind_of_eq_ok {α β : Type} {x : BuildM σ α} {f : α → BuildM σ β} {s s' : σ} {a : α}
    (h : x.run s = .ok (a, s')) : (x >>= f).run s = (f a).run s' := by
  show (Except.bind (x.run s) fun y => (f y.1).run y.2) = _
  rw [h]
  rfl

theorem BuildM.run_draw_bind {α β : Type} (x : Draw σ α) (f : α → BuildM σ β) (s : σ) :
    (draw x >>= f).run s = (f (x.run s).1).run (x.run s).2 := rfl

theorem BuildM.run_pure_eq_ok {α : Type} {a b : α} {s s' : σ} :
    (pure a : BuildM σ α).run s = .ok (b, s') ↔ a = b ∧ s = s' := by
  show Except.ok (a, s) = .ok (b, s') ↔ _
  simp

variable [RandomSource σ]

open BuildM Assembly

namespace Predicate

variable {p : Predicate} {s s' : σ} {f : Fragment}

theorem chain_eq_ok {as : List Assembly} (h : (p.chain (as.map fragment)).run s = .ok (f, s')) :
    ∃ first rest, (first :: rest).Perm as ∧ f = (first.chain rest).fragment := by
  rw [chain, run_draw_bind] at h
  obtain ⟨as', hp, he⟩ := exists_perm_map (Draw.shuffle_perm (as.map fragment) s)
  rw [he] at h
  cases as' with
  | nil => cases h
  | cons first rest =>
    obtain ⟨rfl, -⟩ := run_pure_eq_ok.1 h
    exact ⟨first, rest, hp, (fragment_chain first rest).symm⟩

theorem chain_isOk {parts : List Fragment} (h : parts ≠ []) (s : σ) :
    ∃ r, (p.chain parts).run s = .ok r := by
  rw [chain, run_draw_bind]
  have hp := Draw.shuffle_perm parts s
  cases he : ((Draw.shuffle parts).run s).1 with
  | nil => rw [he] at hp; exact absurd hp.nil_eq.symm h
  | cons first rest => exact ⟨_, rfl⟩

theorem fuse_of_rightTables {right : TableSet} (hp : p.rightTables = some right) (touched : List Fragment) :
    (p.fuse touched : BuildM σ Fragment) = do
      let left ← p.chain (touched.filter fun f => !f.tables.isSubset right)
      let right ← p.chain (touched.filter fun f => f.tables.isSubset right)
      return p.join .leftOuter left right := by
  simp only [fuse, hp, List.partition_eq_filter_filter]
  rfl

theorem fuse_of_many {f g : Fragment} {rest : List Fragment} (hp : p.rightTables = none) :
    (p.fuse (f :: g :: rest) : BuildM σ Fragment) =
      draw (Draw.shuffle (f :: g :: rest)) >>= fun
        | first :: second :: rest => return p.join p.joinKind (rest.foldl Fragment.product first) second
        | _ => throw (.inconsistent (.lostInput p.condition)) := by
  unfold fuse
  generalize p.rightTables = right at hp
  subst hp
  rfl

theorem fuse_eq_ok {touched : List Assembly} (h : (p.fuse (touched.map fragment)).run s = .ok (f, s')) :
    ∃ a, p.Fuses touched a ∧ f = a.fragment := by
  cases hp : p.rightTables with
  | some right =>
    rw [fuse_of_rightTables hp, List.filter_map, List.filter_map] at h
    obtain ⟨left, s₁, hl, h⟩ := run_bind_eq_ok.1 h
    obtain ⟨r, s₂, hr, h⟩ := run_bind_eq_ok.1 h
    obtain ⟨l, ls, hls, rfl⟩ := chain_eq_ok hl
    obtain ⟨r, rs, hrs, rfl⟩ := chain_eq_ok hr
    obtain ⟨rfl, -⟩ := run_pure_eq_ok.1 h
    exact ⟨_, .outerJoin hp hls hrs, rfl⟩
  | none =>
    match touched with
    | [] => simp only [fuse, hp, List.map_nil] at h; cases h
    | [a] =>
      simp only [List.map_singleton, fuse, hp] at h
      change (draw (Draw.choose? (p.filterPaths a.fragment)) >>= _).run s = _ at h
      rw [run_draw_bind] at h
      obtain ⟨rfl, -⟩ := run_pure_eq_ok.1 h
      exact ⟨_, .select hp fun x hx => Draw.mem_of_choose? hx, rfl⟩
    | a :: b :: rest =>
      rw [List.map_cons, List.map_cons, fuse_of_many hp, run_draw_bind] at h
      obtain ⟨as', hperm, he⟩ := exists_perm_map (Draw.shuffle_perm ((a :: b :: rest).map fragment) s)
      rw [List.map_cons, List.map_cons] at he
      rw [he] at h
      match as', hperm with
      | [], hperm => simpa using hperm.length_eq
      | [c], hperm => simpa using hperm.length_eq
      | first :: second :: others, hperm =>
        obtain ⟨rfl, -⟩ := run_pure_eq_ok.1 h
        refine ⟨.join p p.joinKind (first.chain others) second, .join hp hperm, ?_⟩
        rw [fragment, fragment_chain]

theorem fuse_isOk_of_rightTables {right : TableSet} {touched : List Fragment}
    (hp : p.rightTables = some right) (hl : ∃ f ∈ touched, ¬ f.tables.isSubset right = true)
    (hr : ∃ f ∈ touched, f.tables.isSubset right = true) (s : σ) :
    ∃ r, (p.fuse touched).run s = .ok r := by
  obtain ⟨l, hl, hl'⟩ := hl
  obtain ⟨r, hr, hr'⟩ := hr
  rw [fuse_of_rightTables hp]
  obtain ⟨⟨left, s₁⟩, h₁⟩ := chain_isOk (p := p) (List.ne_nil_of_mem
    (List.mem_filter (p := fun f => !f.tables.isSubset right) |>.2 ⟨hl, by simpa using hl'⟩)) s
  obtain ⟨⟨right, s₂⟩, h₂⟩ := chain_isOk (p := p) (List.ne_nil_of_mem
    (List.mem_filter (p := fun f => f.tables.isSubset right) |>.2 ⟨hr, hr'⟩)) s₁
  exact ⟨_, run_bind_eq_ok.2 ⟨left, s₁, h₁, run_bind_eq_ok.2 ⟨right, s₂, h₂, rfl⟩⟩⟩

theorem fuse_isOk_of_none {touched : List Fragment} (hp : p.rightTables = none) (h : touched ≠ [])
    (s : σ) : ∃ r, (p.fuse touched).run s = .ok r := by
  match touched with
  | [] => exact absurd rfl h
  | [f] => simp only [fuse, hp]; exact ⟨_, rfl⟩
  | f :: g :: rest =>
    rw [fuse_of_many hp, run_draw_bind]
    have hperm := Draw.shuffle_perm (f :: g :: rest) s
    match he : ((Draw.shuffle (f :: g :: rest)).run s).1 with
    | [] => rw [he] at hperm; simpa using hperm.length_eq
    | [c] => rw [he] at hperm; simpa using hperm.length_eq
    | first :: second :: others => exact ⟨_, rfl⟩

/-! ### One step -/

theorem applyTo_eq_ok {as : List Assembly} {fragments : List Fragment}
    (h : (p.applyTo (as.map fragment)).run s = .ok (fragments, s')) :
    ∃ a, p.Fuses (as.filter (·.touches p)) a ∧
      fragments = (as.filter (!·.touches p) ++ [a]).map fragment := by
  simp only [applyTo, List.partition_eq_filter_filter, List.filter_map] at h
  obtain ⟨f, s₁, hf, h⟩ := run_bind_eq_ok.1 h
  obtain ⟨a, ha, rfl⟩ := fuse_eq_ok hf
  obtain ⟨rfl, -⟩ := run_pure_eq_ok.1 h
  exact ⟨a, ha, by rw [List.map_append]; rfl⟩

theorem applyTo_isOk {fragments : List Fragment}
    (h : ∃ r, (p.fuse (fragments.filter (·.isTouchedBy p))).run s = .ok r) :
    ∃ r, (p.applyTo fragments).run s = .ok r := by
  obtain ⟨⟨f, s₁⟩, h⟩ := h
  simp only [applyTo, List.partition_eq_filter_filter]
  exact ⟨_, run_bind_eq_ok.2 ⟨f, s₁, h, rfl⟩⟩

end Predicate

/-- The fragments and the pending predicates that the building from some predicates may reach. -/
inductive Problem.Reaches (σ : Type) [RandomSource σ] (problem : Problem) (predicates : List Predicate) :
    List Fragment → List Predicate → Prop
  | start : Reaches σ problem predicates (problem.relations.map .ofRelation) predicates
  | apply {fragments fragments' : List Fragment} {pending others : List Predicate} {p : Predicate}
      {s s' : σ} (h : Reaches σ problem predicates fragments pending)
      (hp : (p, others) ∈ Predicate.splits pending) (ready : p.isReady fragments others = true)
      (applied : (p.applyTo fragments).run s = .ok (fragments', s')) :
      Reaches σ problem predicates fragments' others

variable {problem : Problem} {predicates : List Predicate}

theorem Problem.Reaches.exists_reached {fragments : List Fragment} {pending : List Predicate}
    (h : problem.Reaches σ predicates fragments pending) :
    ∃ as, Reached problem.relations predicates as pending ∧ fragments = as.map fragment := by
  induction h with
  | start => exact ⟨_, .start, by rw [List.map_map]; rfl⟩
  | apply h hp ready applied ih =>
    obtain ⟨as, has, rfl⟩ := ih
    obtain ⟨a, ha, rfl⟩ := Predicate.applyTo_eq_ok applied
    exact ⟨_, .apply has hp ready ha, rfl⟩

namespace Predicate

theorem applyPending_eq_ok {n : Nat} {pending : List Predicate} {fragments fragments' : List Fragment}
    {s s' : σ} (hr : problem.Reaches σ predicates fragments pending) (hn : pending.length = n)
    (h : (applyPending n pending fragments).run s = .ok (fragments', s')) :
    problem.Reaches σ predicates fragments' [] := by
  induction n generalizing pending fragments s with
  | zero =>
    obtain ⟨rfl, -⟩ := run_pure_eq_ok.1 h
    rw [List.length_eq_zero_iff.1 hn] at hr
    exact hr
  | succ n ih =>
    obtain ⟨p, rest, rfl⟩ := List.exists_cons_of_length_eq_add_one hn
    rw [applyPending, run_draw_bind] at h
    cases hc : ((chooseReady fragments none (splits (p :: rest))).run s).1 with
    | none => rw [hc] at h; cases h
    | some x =>
      obtain ⟨chosen, others⟩ := x
      rw [hc] at h
      obtain ⟨next, s₁, happ, h⟩ := run_bind_eq_ok.1 h
      rcases mem_of_chooseReady hc with hx | ⟨hx, ready⟩
      · cases hx
      · have := length_of_mem_splits hx
        exact ih (.apply hr hx ready happ) (by omega) h

/-- Building succeeds where an invariant lets every state but the last go on, whatever is chosen. -/
theorem applyPending_isOk {I : List Fragment → List Predicate → Prop}
    (progress : ∀ fragments pending, I fragments pending → pending ≠ [] →
      ∃ x ∈ splits pending, x.1.isReady fragments x.2 = true)
    (step : ∀ fragments pending p others (s : σ), I fragments pending → (p, others) ∈ splits pending →
      p.isReady fragments others = true →
        ∃ next s', (p.applyTo fragments).run s = .ok (next, s') ∧ I next others)
    {pending : List Predicate} {fragments : List Fragment} (h : I fragments pending) (s : σ) :
    ∃ r, (applyPending pending.length pending fragments).run s = .ok r := by
  generalize hn : pending.length = n
  induction n generalizing pending fragments s with
  | zero => exact ⟨_, rfl⟩
  | succ n ih =>
    obtain ⟨p, rest, rfl⟩ := List.exists_cons_of_length_eq_add_one hn
    rw [applyPending, run_draw_bind]
    cases hc : ((chooseReady fragments none (splits (p :: rest))).run s).1 with
    | none =>
      obtain ⟨x, hx, ready⟩ := progress fragments _ h (by simp)
      exact absurd ready ((not_ready_of_chooseReady hc).2 x hx)
    | some x =>
      obtain ⟨chosen, others⟩ := x
      rcases mem_of_chooseReady hc with hx | ⟨hx, ready⟩
      · cases hx
      · obtain ⟨next, s₁, happ, hnext⟩ := step _ _ _ _ _ h hx ready
        have := length_of_mem_splits hx
        obtain ⟨r, hr⟩ := ih hnext s₁ (by omega)
        exact ⟨r, run_bind_eq_ok.2 ⟨next, s₁, happ, hr⟩⟩

/-- Where every step succeeds, building fails only for want of a predicate that is ready. -/
theorem applyPending_eq_error {I : List Fragment → List Predicate → Prop}
    (step : ∀ fragments pending p others (s : σ), I fragments pending → (p, others) ∈ splits pending →
      p.isReady fragments others = true →
        ∃ next s', (p.applyTo fragments).run s = .ok (next, s') ∧ I next others)
    {n : Nat} {pending : List Predicate} {fragments : List Fragment} (h : I fragments pending) {s : σ}
    {e : PlanError} (he : (applyPending n pending fragments).run s = .error e) :
    ∃ condition count trees, e = .unschedulable condition (.noneReady count trees) := by
  induction n generalizing pending fragments s with
  | zero => cases he
  | succ n ih =>
    cases pending with
    | nil => cases he
    | cons p rest =>
      rw [applyPending, run_draw_bind] at he
      cases hc : ((chooseReady fragments none (splits (p :: rest))).run s).1 with
      | none =>
        rw [hc] at he
        cases he
        exact ⟨_, _, _, rfl⟩
      | some x =>
        obtain ⟨chosen, others⟩ := x
        rw [hc] at he
        rcases mem_of_chooseReady hc with hx | ⟨hx, ready⟩
        · cases hx
        · obtain ⟨next, s₁, happ, hnext⟩ := step _ _ _ _
            ((chooseReady fragments none (splits (p :: rest))).run s).2 h hx ready
          refine ih hnext (s := s₁) ?_
          rw [← he]
          exact (run_bind_of_eq_ok happ).symm

end Predicate

/-! ### The last joins -/

namespace Fragment

theorem takeAt_perm {fragments : Array Fragment} {i : Nat} (hi : i < fragments.size) :
    ((takeAt fragments i).1 :: (takeAt fragments i).2.toList).Perm fragments.toList := by
  set b := fragments.swapIfInBounds i (fragments.size - 1)
  have hbs : b.size = fragments.size := Array.size_swapIfInBounds
  have hne : b.toList ≠ [] := by
    intro h
    have : b.toList.length = 0 := by rw [h]; rfl
    rw [Array.length_toList] at this
    omega
  have hlast : (takeAt fragments i).1 = b.toList.getLast hne := by
    rw [takeAt, Array.getElem?_eq_getElem hi, Option.getD_some, List.getLast_eq_getElem]
    simp only [Array.length_toList, Array.getElem_toList, hbs]
    exact (Array.getElem_swapIfInBounds_right hi (by rw [hbs]; omega)).symm
  have htail : (takeAt fragments i).2.toList = b.toList.dropLast := Array.toList_pop
  rw [hlast, htail]
  refine (List.perm_append_singleton _ _).symm.trans ?_
  rw [List.dropLast_concat_getLast]
  exact Draw.swapIfInBounds_perm _ _ _

/-- An entry taken out of an array of partial plans is that of one of the assemblies. -/
theorem takeAt_fragment {as : List Assembly} {i : Nat} (hi : i < as.length) :
    ∃ a rest, (a :: rest).Perm as ∧
      takeAt (as.map fragment).toArray i = (a.fragment, (rest.map fragment).toArray) := by
  have hi' : i < (as.map fragment).toArray.size := by simpa using hi
  obtain ⟨as', hperm, he⟩ := exists_perm_map (takeAt_perm hi')
  cases as' with
  | nil => cases he
  | cons a rest =>
    obtain ⟨h₁, h₂⟩ := List.cons.inj he
    exact ⟨a, rest, hperm, Prod.ext h₁ (Array.toList_inj.1 h₂)⟩

theorem pairOff_succ_run (n : Nat) (fragments : Array Fragment) (s : σ) :
    (pairOff (n + 1) fragments).run s =
      let i := (Draw.longBelow fragments.size).run s
      let x := takeAt fragments i.1
      let j := (Draw.longBelow x.2.size).run i.2
      let y := takeAt x.2 j.1
      (pairOff n (y.2.push (x.1.product y.1))).run j.2 := by
  simp only [pairOff, StateT.run_bind]
  rfl

theorem pairOff_run {n : Nat} {as : List Assembly} (hn : as.length = n + 1) (s : σ) :
    ∃ a, Paired as a ∧ ((pairOff n (as.map fragment).toArray).run s).1 = #[a.fragment] := by
  have draws (as : List Assembly) (h : 0 < as.length) (s : σ) :
      ((Draw.longBelow (as.map fragment).toArray.size).run s).1 < as.length := by
    have := Draw.longBelow_lt h s
    rwa [List.size_toArray, List.length_map]
  induction n generalizing as s with
  | zero =>
    obtain ⟨a, rfl⟩ := List.length_eq_one_iff.1 hn
    exact ⟨a, .one a, rfl⟩
  | succ n ih =>
    obtain ⟨a, rest, ha, ta⟩ := takeAt_fragment (draws as (by omega) s)
    have hrest : rest.length = n + 1 := by have := ha.length_eq; simp at this; omega
    obtain ⟨b, rest', hb, tb⟩ := takeAt_fragment (draws rest (by omega)
      ((Draw.longBelow (as.map fragment).toArray.size).run s).2)
    have hlen : (rest' ++ [Assembly.product a b]).length = n + 1 := by
      have := hb.length_eq; simp at this ⊢; omega
    rw [pairOff_succ_run]
    simp only [ta, tb]
    obtain ⟨c, hc, hrun⟩ := ih hlen
      ((Draw.longBelow (rest.map fragment).toArray.size).run
        ((Draw.longBelow (as.map fragment).toArray.size).run s).2).2
    refine ⟨c, .pair (ha.symm.trans (hb.symm.cons a)) hc, ?_⟩
    rw [← hrun, List.map_append, ← List.append_toArray]
    rfl

end Fragment

namespace Problem

variable {order : List Nat} {s : σ}

/-- The plan of what is left when all predicates are applied. -/
def finish (problem : Problem) (fragments : List Fragment) (s : σ) : Expr :=
  let last := ((Fragment.pairOff (fragments.length - 1) fragments.toArray).run s).1
  problem.withOrder (problem.withStatics ((last.back?.map (·.tree)).getD .singleRow))

theorem build_of_select (h : problem.select order = .ok predicates) (s : σ) :
    problem.build order s =
      ((Predicate.applyPending predicates.length predicates
        (problem.relations.map .ofRelation)).run s).map fun r => problem.finish r.1 r.2 := by
  simp only [build, h, buildTree]
  show Except.bind (Except.bind ((Predicate.applyPending predicates.length predicates
    (problem.relations.map .ofRelation)).run s) _) _ = _
  cases (Predicate.applyPending predicates.length predicates
    (problem.relations.map .ofRelation)).run s <;> rfl

theorem select_of_perm_range (h : order.Perm (List.range problem.predicates.length)) :
    ∃ predicates, problem.select order = .ok predicates ∧ predicates.Perm problem.predicates := by
  have hsel : order.Nodup ∧ ∀ i ∈ order, i < problem.predicates.length :=
    ⟨h.nodup_iff.2 List.nodup_range, fun i hi => List.mem_range.1 (h.mem_iff.1 hi)⟩
  exact ⟨_, if_pos hsel, (h.filterMap _).trans (.of_eq (filterMap_range_getElem? problem.predicates))⟩

/-- Whatever the order, each predicate is selected at most once. -/
theorem exists_sublist_of_select (h : problem.select order = .ok predicates) :
    ∃ chosen : List Predicate, chosen.Perm predicates ∧ chosen.Sublist problem.predicates := by
  unfold select at h
  split at h
  case isFalse => cases h
  case isTrue hsel =>
    cases h
    have hsub : order ⊆ List.range problem.predicates.length := fun i hi => List.mem_range.2 (hsel.2 i hi)
    obtain ⟨chosen, hperm, hchosen⟩ := List.subperm_of_subset hsel.1 hsub
    have hall := hchosen.filterMap (problem.predicates[·]?)
    rw [filterMap_range_getElem?] at hall
    exact ⟨_, hperm.filterMap _, hall⟩

theorem select_eq_ok_of_build {tree : Expr} (h : problem.build order s = .ok tree) :
    ∃ predicates, problem.select order = .ok predicates := by
  cases hs : problem.select order with
  | error e => simp only [build, hs] at h; cases h
  | ok predicates => exact ⟨predicates, rfl⟩

/-- Building succeeds if the order is a selection and all its predicates can be applied. -/
theorem build_isOk_iff :
    (∃ tree, problem.build order s = .ok tree) ↔ ∃ predicates, problem.select order = .ok predicates ∧
      ∃ r, (Predicate.applyPending predicates.length predicates
        (problem.relations.map .ofRelation)).run s = .ok r := by
  constructor
  · rintro ⟨tree, h⟩
    obtain ⟨predicates, hs⟩ := select_eq_ok_of_build h
    rw [build_of_select hs] at h
    cases ha : (Predicate.applyPending predicates.length predicates
        (problem.relations.map .ofRelation)).run s with
    | error e => rw [ha] at h; cases h
    | ok r => exact ⟨predicates, hs, r, ha⟩
  · rintro ⟨predicates, hs, r, ha⟩
    exact ⟨problem.finish r.1 r.2, by rw [build_of_select hs, ha]; rfl⟩

theorem finish_closes (problem : Problem) (as : List Assembly) (s : σ) :
    ∃ core, Closes as core ∧
      problem.finish (as.map fragment) s = problem.withOrder (problem.withStatics core) := by
  cases as with
  | nil => exact ⟨_, .none, rfl⟩
  | cons a rest =>
    obtain ⟨c, hc, hrun⟩ := Fragment.pairOff_run (List.length_cons : (a :: rest).length = _) s
    refine ⟨_, .paired hc, ?_⟩
    have hlen : ((a :: rest).map fragment).length - 1 = rest.length := by simp
    simp only [finish, hlen, hrun]
    rfl

/-- A plan that is built is that of assemblies which the building reaches, with the constants and the
order on top. -/
theorem build_eq_ok {tree : Expr} (h : problem.build order s = .ok tree) :
    ∃ predicates as core, problem.select order = .ok predicates ∧
      Reached problem.relations predicates as [] ∧ Closes as core ∧
      tree = problem.withOrder (problem.withStatics core) := by
  obtain ⟨predicates, hs, ⟨fragments, s'⟩, ha⟩ := build_isOk_iff.1 ⟨tree, h⟩
  have hstart : problem.Reaches σ predicates (problem.relations.map .ofRelation) predicates := .start
  obtain ⟨as, has, rfl⟩ := (Predicate.applyPending_eq_ok hstart rfl ha).exists_reached
  obtain ⟨core, hcore, hfin⟩ := problem.finish_closes as s'
  rw [build_of_select hs, ha] at h
  obtain rfl := Except.ok.inj h
  exact ⟨predicates, as, core, hs, has, hcore, hfin⟩

theorem build_eq_ok_of_perm_range (horder : order.Perm (List.range problem.predicates.length)) {tree : Expr}
    (h : problem.build order s = .ok tree) :
    ∃ predicates as core, predicates.Perm problem.predicates ∧ Reached problem.relations predicates as [] ∧
      Closes as core ∧ tree = problem.withOrder (problem.withStatics core) := by
  obtain ⟨predicates, hsel, hperm⟩ := select_of_perm_range horder
  obtain ⟨predicates', as, core, hsel', hreach, hcloses, htree⟩ := build_eq_ok h
  obtain rfl := Except.ok.inj (hsel.symm.trans hsel')
  exact ⟨predicates, as, core, hperm, hreach, hcloses, htree⟩

end Problem

end JoinPlanner
