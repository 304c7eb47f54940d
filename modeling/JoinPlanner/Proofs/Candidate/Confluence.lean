import JoinPlanner.Proofs.Candidate.Readiness
import JoinPlanner.Random.Generator

/-!
# Confluence of scheduling

A predicate that is ready stays ready when another is applied, so it does not matter which of the
ready predicates is taken first. `Clears` says that predicates can be applied one after the other; by
`Clears.of_unblocked` any ready one may come first, and `Problem.build_isOk_iff_clears` reduces the
success of a building to it, in which neither the order nor the draws occur.
-/

namespace JoinPlanner

open Assembly

namespace Predicate

/-- The predicate finds something to work on: as an outer join, a part of its right branch. -/
def Fusible (p : Predicate) : Prop := ∃ t ∈ p.tables, ∀ right, p.rightTables = some right → t ∈ right

/-- The predicates can be applied one after the other, in some order. -/
inductive Clears (names : List TableName) : List Predicate → Prop
  | nil : Clears names []
  | apply {pending others : List Predicate} {p : Predicate} (hp : pending.Perm (p :: others))
      (free : p.Unblocked names others) (able : p.Fusible) (h : Clears names others) :
      Clears names pending

namespace Clears

variable {names : List TableName} {pending others : List Predicate} {p : Predicate}

theorem perm {pending' : List Predicate} (h : Clears names pending) (hp : pending.Perm pending') :
    Clears names pending' := by
  cases h with
  | nil => rw [hp.nil_eq.symm]; exact .nil
  | apply hq free able h => exact .apply (hp.symm.trans hq) free able h

theorem of_unblocked (h : Clears names pending) (hp : pending.Perm (p :: others))
    (free : p.Unblocked names others) : p.Fusible ∧ Clears names others := by
  induction h generalizing others with
  | nil => exact absurd hp.nil_eq (by simp)
  | @apply pending others' q hq freeq able h ih =>
    have hperm := hp.symm.trans hq
    -- the first predicate `q` of the given order is `p`, or `p` is among the others of `q`
    by_cases hpq : p = q
    · subst hpq
      exact ⟨able, h.perm (List.perm_cons p |>.1 hperm).symm⟩
    · have hmem : p ∈ others' := by
        have := hperm.mem_iff.1 (List.mem_cons_self (a := p) (l := others))
        exact (List.mem_cons.1 this).resolve_left hpq
      obtain ⟨front, back, rfl⟩ := List.append_of_mem hmem
      have hrest : (front ++ p :: back).Perm (p :: (front ++ back)) := List.perm_middle
      have hothers : others.Perm (q :: (front ++ back)) := by
        refine List.perm_cons p |>.1 (hperm.trans ?_)
        exact (hrest.cons q).trans (.swap p q _)
      obtain ⟨ablep, hclear⟩ := ih hrest (free.mono fun r hr => hothers.mem_iff.2 (.tail _ hr))
      exact ⟨ablep, .apply hothers (freeq.mono fun r hr => hrest.mem_iff.2 (.tail _ hr)) able hclear⟩

end Clears

end Predicate

open Predicate

theorem Predicate.Fuses.fusible {as : List Assembly} {p : Predicate} {a : Assembly}
    (ha : p.Fuses (as.filter (·.touches p)) a) : p.Fusible := by
  have touch : ∀ b ∈ as.filter (·.touches p), ∃ t ∈ b.tables, t ∈ p.tables := fun b hb =>
    touches_iff.1 (List.mem_filter.1 hb).2
  generalize as.filter (·.touches p) = touched at ha touch
  cases ha with
  | @outerJoin right _ _ rs _ r hr hls hrs =>
    obtain ⟨hb, hsub⟩ := List.mem_filter.1 (hrs.mem_iff.1 (.head _))
    obtain ⟨t, htb, htp⟩ := touch r hb
    refine ⟨t, htp, fun right' hr' => ?_⟩
    obtain rfl := Option.some.inj (hr.symm.trans hr')
    exact SortedSet.isSubset_iff.1 hsub t htb
  | @select _ b hr hpath =>
    obtain ⟨t, -, htp⟩ := touch b (.head _)
    exact ⟨t, htp, fun _ hr' => by cases hr.symm.trans hr'⟩
  | @join _ rest first second hr hperm =>
    obtain ⟨t, -, htp⟩ := touch first (hperm.mem_iff.1 (.head _))
    exact ⟨t, htp, fun _ hr' => by cases hr.symm.trans hr'⟩

namespace Assembly.Sound

variable {relations : List Relation} {as : List Assembly} {pending others : List Predicate} {p : Predicate}

/-- A predicate stays ready when another ready one is applied. -/
theorem isReady_apply {q : Predicate} (h : Sound relations as pending) (hp : pending.Perm (p :: q :: others))
    (readyp : p.isReady (as.map fragment) (q :: others) = true)
    (readyq : q.isReady (as.map fragment) (p :: others) = true) {a : Assembly}
    (ha : p.Fuses (as.filter (·.touches p)) a) :
    q.isReady ((as.filter (!·.touches p) ++ [a]).map fragment) others = true := by
  have hq : pending.Perm (q :: p :: others) := hp.trans (.swap q p _)
  have next := h.apply hp ((h.isReady_iff hp).1 readyp) ha
  exact (next.isReady_iff (.refl _)).2 (((h.isReady_iff hq).1 readyq).mono fun r hr => .tail _ hr)

/-- An unblocked predicate that finds something to work on is applied. -/
theorem applyTo_isOk {σ : Type} [RandomSource σ] (h : Sound relations as pending)
    (hp : pending.Perm (p :: others)) (free : p.Unblocked (relations.map (·.name)) others)
    (able : p.Fusible) (s : σ) : ∃ r, (p.applyTo (as.map fragment)).run s = .ok r := by
  refine Predicate.applyTo_isOk ?_
  have mem {t : TableName} (ht : t ∈ p.tables) : ∃ a ∈ as, t ∈ a.tables ∧
      a.fragment ∈ (as.map fragment).filter (·.isTouchedBy p) := by
    obtain ⟨a, ha, hta⟩ := h.exists_touched (free.present t ht) ht
    obtain ⟨ha, htouch⟩ := List.mem_filter.1 ha
    exact ⟨a, ha, hta, List.mem_filter.2 ⟨List.mem_map_of_mem ha, htouch⟩⟩
  obtain ⟨t, ht, hright⟩ := able
  obtain ⟨a, ha, hta, hmem⟩ := mem ht
  cases hr : p.rightTables with
  | none => exact fuse_isOk_of_none hr (List.ne_nil_of_mem hmem) s
  | some right =>
    refine fuse_isOk_of_rightTables hr ?_ ⟨a.fragment, hmem, ?_⟩ s
    · obtain ⟨u, hu, hnot⟩ := free.hasLeft right hr
      obtain ⟨b, hb, hub, hmemb⟩ := mem hu
      exact ⟨b.fragment, hmemb, fun hsub => hnot (SortedSet.isSubset_iff.1 hsub u hub)⟩
    · have := h.unsplit p (hp.mem_iff.2 (.head _)) right hr a ha
      exact SortedSet.isSubset_iff.2 fun u hu => this.mem_of_mem hta (hright right hr) hu

end Assembly.Sound

theorem Assembly.Reached.clears {relations : List Relation} {predicates pending : List Predicate}
    {as : List Assembly} (h : Reached relations predicates as pending)
    (hc : Clears (relations.map (·.name)) pending) : Clears (relations.map (·.name)) predicates := by
  induction h with
  | start => exact hc
  | apply h hp ready fuses ih =>
    have hperm := perm_of_mem_splits hp
    exact ih (.apply hperm ((h.sound.isReady_iff hperm).1 ready) fuses.fusible hc)

namespace Problem

variable {σ : Type} [RandomSource σ] {problem : Problem} {predicates : List Predicate}

theorem applyPending_isOk (hc : Clears (problem.relations.map (·.name)) predicates) (s : σ) :
    ∃ r, (applyPending predicates.length predicates (problem.relations.map .ofRelation)).run s = .ok r := by
  have start : problem.relations.map Fragment.ofRelation = (problem.relations.map relation).map fragment := by
    rw [List.map_map]; rfl
  refine Predicate.applyPending_isOk (I := fun fragments pending => ∃ as, fragments = as.map fragment ∧
    Sound problem.relations as pending ∧ Clears (problem.relations.map (·.name)) pending) ?_ ?_
    ⟨_, start, .start _ _, hc⟩ s
  · rintro _ pending ⟨as, rfl, sound, hc⟩ hne
    cases hc with
    | nil => exact absurd rfl hne
    | @apply _ others p hp free able hc =>
      obtain ⟨others', hp'⟩ := exists_mem_splits (hp.mem_iff.2 (List.mem_cons_self (a := p)))
      have hperm := perm_of_mem_splits hp'
      have hmem : ∀ r ∈ others', r ∈ others := fun r hr =>
        ((List.perm_cons p).1 (hp.symm.trans hperm)).mem_iff.2 hr
      exact ⟨_, hp', (sound.isReady_iff hperm).2 (free.mono hmem)⟩
  · rintro _ pending p others s ⟨as, rfl, sound, hc⟩ hp ready
    have hperm := perm_of_mem_splits hp
    have free := (sound.isReady_iff hperm).1 ready
    obtain ⟨able, hc⟩ := hc.of_unblocked hperm free
    obtain ⟨⟨next, s'⟩, happ⟩ := sound.applyTo_isOk hperm free able s
    obtain ⟨a, ha, rfl⟩ := applyTo_eq_ok happ
    exact ⟨_, s', happ, _, rfl, sound.apply hperm free ha, hc⟩

theorem build_isOk_iff_clears {order : List Nat} {s : σ} :
    (∃ tree, problem.build order s = .ok tree) ↔ ∃ predicates, problem.select order = .ok predicates ∧
      Clears (problem.relations.map (·.name)) predicates := by
  rw [build_isOk_iff]
  refine exists_congr fun predicates => and_congr_right fun hs => ⟨?_, fun hc => applyPending_isOk hc s⟩
  rintro ⟨⟨fragments, s'⟩, ha⟩
  have hstart : problem.Reaches σ predicates (problem.relations.map .ofRelation) predicates := .start
  obtain ⟨as, has, -⟩ := (applyPending_eq_ok hstart rfl ha).exists_reached
  exact has.clears .nil

theorem select_perm {order order' : List Nat} (h : order.Perm order')
    (hs : problem.select order = .ok predicates) :
    ∃ predicates', problem.select order' = .ok predicates' ∧ predicates.Perm predicates' := by
  unfold select at hs ⊢
  split at hs
  · next hsel =>
    obtain rfl := Except.ok.inj hs
    refine ⟨_, if_pos ⟨h.nodup_iff.1 hsel.1, fun i hi => hsel.2 i (h.mem_iff.2 hi)⟩, h.filterMap _⟩
  · cases hs

/-- The order of the predicates and the draws do not decide whether a building succeeds; and in every
state that a building reaches a pending predicate `q` that is ready stays ready when another one is
applied. -/
theorem build_confluent (problem : Problem) :
    (∀ {order order' : List Nat}, order.Perm order' → ∀ s s' : σ,
      ((∃ tree, problem.build order s = .ok tree) ↔ ∃ tree, problem.build order' s' = .ok tree)) ∧
    ∀ {predicates pending others others' rest : List Predicate} {fragments fragments' : List Fragment}
      {p q : Predicate} {s s' : σ}, problem.Reaches σ predicates fragments pending →
      (p, others) ∈ splits pending → p.isReady fragments others = true →
      (q, others') ∈ splits pending → q.isReady fragments others' = true →
      (q, rest) ∈ splits others → (p.applyTo fragments).run s = .ok (fragments', s') →
      q.isReady fragments' rest = true := by
  constructor
  · have half {order order' : List Nat} (h : order.Perm order') (s s' : σ)
        (hb : ∃ tree, problem.build order s = .ok tree) : ∃ tree, problem.build order' s' = .ok tree := by
      obtain ⟨predicates, hs, hc⟩ := build_isOk_iff_clears.1 hb
      obtain ⟨predicates', hs', hperm⟩ := select_perm h hs
      exact build_isOk_iff_clears.2 ⟨predicates', hs', hc.perm hperm⟩
    intro order order' h s s'
    exact ⟨half h s s', half h.symm s' s⟩
  · intro predicates pending others others' rest fragments fragments' p q s s' hreach hp readyp hq readyq
      hrest happ
    obtain ⟨as, has, rfl⟩ := hreach.exists_reached
    obtain ⟨a, ha, rfl⟩ := applyTo_eq_ok happ
    have hpq : pending.Perm (p :: q :: rest) :=
      (perm_of_mem_splits hp).trans ((perm_of_mem_splits hrest).cons p)
    have hothers' : others'.Perm (p :: rest) :=
      (List.perm_cons q).1 ((perm_of_mem_splits hq).symm.trans (hpq.trans (.swap q p rest)))
    have := (has.sound.isReady_iff (perm_of_mem_splits hq)).1 readyq
    refine has.sound.isReady_apply hpq ?_ ?_ ha
    · exact (has.sound.isReady_iff hpq).2 (((has.sound.isReady_iff (perm_of_mem_splits hp)).1 readyp).mono
        fun r hr => (perm_of_mem_splits hrest).mem_iff.2 hr)
    · exact (has.sound.isReady_iff (hpq.trans (.swap q p rest))).2
        (this.mono fun r hr => hothers'.mem_iff.2 hr)

/-- An outer join of `a` with `b` and `c`. -/
def branch : Predicate where
  condition := .equals (.column ⟨⟨none, "a"⟩, "x"⟩) (.column ⟨⟨none, "b"⟩, "x"⟩)
  tables := .ofList [⟨none, "a"⟩, ⟨none, "b"⟩, ⟨none, "c"⟩]
  waitsFor := some (.ofList [⟨none, "b"⟩, ⟨none, "c"⟩])
  exclusive := true
  joinKind := .leftOuter
  outerJoin := some 0
  inside := ∅

/-- A join of `b` and `c` in the right branch. -/
def inBranch : Predicate :=
  .ofCondition (.equals (.column ⟨⟨none, "b"⟩, "y"⟩) (.column ⟨⟨none, "c"⟩, "y"⟩)) (.singleton 0)

/-- A join of `a` with a fourth relation `d`. -/
def besideBranch : Predicate :=
  .ofCondition (.equals (.column ⟨⟨none, "a"⟩, "z"⟩) (.column ⟨⟨none, "d"⟩, "z"⟩)) ∅

def branched : Problem where
  relations := ["a", "b", "c", "d"].map fun n => ⟨⟨none, n⟩, ⟨none, n⟩⟩
  predicates := [branch, inBranch, besideBranch]

theorem build_confluent_branched :
    (branched.build [0, 1, 2] (Generator.ofSeed 1)).isOk = true ∧
    (∃ tree, branched.build [2, 0, 1] (Generator.ofSeed 2) = .ok tree) ∧
    ∃ fragments s, (besideBranch.applyTo (branched.relations.map .ofRelation)).run (Generator.ofSeed 3) =
      .ok (fragments, s) ∧ inBranch.isReady fragments [branch] = true := by
  obtain ⟨order, ready⟩ := build_confluent (σ := Generator) branched
  have built : (branched.build [0, 1, 2] (Generator.ofSeed 1)).isOk = true := by decide +kernel
  refine ⟨built, ?_, ?_⟩
  · have hperm : [0, 1, 2].Perm [2, 0, 1] := by decide
    exact (order hperm _ _).1 (ok_of_isOk built)
  · have hother : (besideBranch, [branch, inBranch]) ∈ splits branched.predicates :=
      mem_splits.2 ⟨[branch, inBranch], [], rfl, rfl⟩
    have hin : (inBranch, [branch, besideBranch]) ∈ splits branched.predicates :=
      mem_splits.2 ⟨[branch], [besideBranch], rfl, rfl⟩
    have hrest : (inBranch, [branch]) ∈ splits [branch, inBranch] :=
      mem_splits.2 ⟨[branch], [], rfl, rfl⟩
    have applied : ((besideBranch.applyTo (branched.relations.map .ofRelation)).run
        (Generator.ofSeed 3)).isOk = true := by decide +kernel
    obtain ⟨⟨fragments, s⟩, h⟩ := ok_of_isOk applied
    exact ⟨fragments, s, h, ready .start hother (by decide) hin (by decide) hrest h⟩

end Problem

end JoinPlanner
