import Mathlib.Data.List.Forall2
import Mathlib.Data.List.SplitBy
import Mathlib.Order.Lattice

/-!
# Lists element by element

What a computation that can fail on a list says of its elements, what is counted of them, how a list is made of the
elements of every key (`filter_append_flatMap_perm`), and how one lies that is sorted by key: the elements of one key
are one of the runs into which it splits (`filter_mem_splitBy`).
-/

namespace JoinPlanner

section
variable {α β : Type} {as : List α} {bs : List β}

theorem mapM_eq_some_iff {f : α → Option β} :
    as.mapM f = some bs ↔ List.Forall₂ (fun a b => f a = some b) as bs := by
  induction as generalizing bs with
  | nil => simp [eq_comm]
  | cons a as ih => cases bs <;> simp [List.mapM_cons, Option.bind_eq_some_iff, ih]

/-- A function that has a value on every element has one on the list. -/
theorem isSome_mapM {f : α → Option β} : (as.mapM f).isSome = true ↔ ∀ a ∈ as, (f a).isSome = true := by
  induction as with
  | nil => simp
  | cons a as ih =>
    rw [List.forall_mem_cons, ← ih, List.mapM_cons]
    cases f a <;> cases as.mapM f <;> simp

theorem exists_of_forall₂ {R : α → β → Prop} (h : List.Forall₂ R as bs) {b : β} (hb : b ∈ bs) : ∃ a ∈ as, R a b := by
  induction h with
  | nil => cases hb
  | @cons a b' as _ hab _ ih =>
    rcases List.mem_cons.1 hb with rfl | hb
    · exact ⟨a, .head _, hab⟩
    · obtain ⟨a', ha', hab'⟩ := ih hb
      exact ⟨a', .tail _ ha', hab'⟩

end

/-- What is counted for one of two reasons is counted for the one or for the other. -/
theorem countP_or_le {α : Type} (p q : α → Bool) (l : List α) :
    l.countP (fun a => p a || q a) ≤ l.countP p + l.countP q := by
  induction l with
  | nil => simp
  | cons a l ih =>
    simp only [List.countP_cons]
    cases p a <;> cases q a <;> simp <;> omega

theorem foldl_max_le_iff {ns : List ℕ} {best n : ℕ} : ns.foldl max best ≤ n ↔ best ≤ n ∧ ∀ m ∈ ns, m ≤ n := by
  induction ns generalizing best with
  | nil => simp
  | cons m ns ih => simp [ih, and_assoc]

/-- A list in which what has the property comes first. -/
theorem eq_filter_append_filter {α : Type} {p : α → Bool} {l : List α}
    (h : l.Pairwise fun a b => p b = true → p a = true) : l = l.filter p ++ l.filter fun a => !p a := by
  induction l with
  | nil => rfl
  | cons a l ih =>
    obtain ⟨ha, hl⟩ := List.pairwise_cons.1 h
    cases hp : p a with
    | true => simpa [hp] using ih hl
    | false =>
      have hnone : ∀ b ∈ l, p b = false := fun b hb => Bool.eq_false_iff.2 fun hb' => by
        rw [ha b hb hb'] at hp
        cases hp
      have hall : l.filter (fun b => !p b) = l := List.filter_eq_self.2 fun b hb => by rw [hnone b hb]; rfl
      have hnil : l.filter p = [] := List.filter_eq_nil_iff.2 fun b hb => by simp [hnone b hb]
      simp [hp, hall, hnil]

section Keys

variable {α β : Type} {f : α → Option β} {l : List α}

/-- The values of a list by key: those of the elements without one, then one for every element that has one. -/
theorem map_perm_filterMap {γ : Type} {g : α → γ} {G : β → γ} (h : ∀ a ∈ l, ∀ k, f a = some k → g a = G k) :
    (l.map g).Perm ((l.filter (f · = none)).map g ++ (l.filterMap f).map G) := by
  induction l with
  | nil => exact .nil
  | cons a l ih =>
    obtain ⟨ha, hl⟩ := List.forall_mem_cons.1 h
    cases hf : f a with
    | none => simpa [hf] using ih hl
    | some k => simpa [hf, ha k hf] using ((ih hl).cons (G k)).trans List.perm_middle.symm

/-- A list is its elements without a key, and for every key those that have it. -/
theorem filter_append_flatMap_perm [DecidableEq β] {keys : List β} (hn : keys.Nodup)
    (hkeys : ∀ a ∈ l, ∀ k, f a = some k → k ∈ keys) :
    (l.filter (f · = none) ++ keys.flatMap fun k => l.filter (f · = some k)).Perm l := by
  induction keys generalizing l with
  | nil =>
    have hnone : ∀ a ∈ l, f a = none := fun a ha => by
      cases hf : f a with
      | none => rfl
      | some k => exact absurd (hkeys a ha k hf) List.not_mem_nil
    rw [List.flatMap_nil, List.append_nil, List.filter_eq_self.2 fun a ha => decide_eq_true (hnone a ha)]
  | cons k keys ih =>
    obtain ⟨hk, hn⟩ := List.nodup_cons.1 hn
    -- what has another key, or none, is left when those of `k` are taken out
    have hrest {o : Option β} (ho : o ≠ some k) :
        (l.filter fun a => !decide (f a = some k)).filter (f · = o) = l.filter (f · = o) := by
      rw [List.filter_filter]
      refine List.filter_congr fun a _ => ?_
      by_cases ha : f a = o <;> simp [ha, ho]
    have hflat : (keys.flatMap fun k' => l.filter (f · = some k')) =
        keys.flatMap fun k' => (l.filter fun a => !decide (f a = some k)).filter (f · = some k') :=
      List.flatMap_congr fun k' hk' => (hrest fun h => hk (Option.some.inj h ▸ hk')).symm
    have hothers := ih (l := l.filter fun a => !decide (f a = some k)) hn fun a ha k' hf => by
      obtain ⟨ha, hne⟩ := List.mem_filter.1 ha
      refine (List.mem_cons.1 (hkeys a ha k' hf)).resolve_left fun h => ?_
      simp [hf, h] at hne
    rw [hrest (Option.some_ne_none k).symm, ← hflat] at hothers
    rw [List.flatMap_cons]
    refine List.perm_append_comm_assoc _ _ _ |>.trans ?_
    exact (hothers.append_left _).trans (List.filter_append_perm (fun a => decide (f a = some k)) l)

end Keys

section Runs

variable {α β : Type} [LinearOrder β] {f : α → β} {r : α → α → Bool} {l m : List α} {k : β}

theorem splitBy_append_of_lt (hr : ∀ a b, r a b = true ↔ f a = f b) (h : ∀ a ∈ l, ∀ b ∈ m, f a < f b) :
    (l ++ m).splitBy r = l.splitBy r ++ m.splitBy r := by
  refine List.splitBy_append fun a ha b hb => ?_
  rw [← Bool.not_eq_true, hr]
  exact (h a (List.mem_of_getLast? ha) b (List.mem_of_head? hb)).ne

/-- A list that is sorted by key is what lies below a key, what lies at it and what lies above it. -/
theorem eq_below_append_above (hl : l.Pairwise fun a b => f a ≤ f b) (k : β) :
    l = l.filter (f · < k) ++ (l.filter (f · = k) ++ l.filter (k < f ·)) := by
  have hbelow : l = l.filter (f · < k) ++ l.filter fun a => !decide (f a < k) :=
    eq_filter_append_filter (hl.imp fun hab hb => decide_eq_true (hab.trans_lt (of_decide_eq_true hb)))
  have hrest : l.filter (fun a => !decide (f a < k)) = (l.filter fun a => !decide (f a < k)).filter (f · ≤ k) ++
      (l.filter fun a => !decide (f a < k)).filter fun a => !decide (f a ≤ k) :=
    eq_filter_append_filter ((hl.filter _).imp fun hab hb => decide_eq_true (hab.trans (of_decide_eq_true hb)))
  have hat : (l.filter fun a => !decide (f a < k)).filter (f · ≤ k) = l.filter (f · = k) := by
    rw [List.filter_filter]
    exact List.filter_congr fun a _ => by simp [le_antisymm_iff, ← decide_not]
  have habove : (l.filter fun a => !decide (f a < k)).filter (fun a => !decide (f a ≤ k)) = l.filter (k < f ·) := by
    rw [List.filter_filter]
    refine List.filter_congr fun a _ => ?_
    simpa [← decide_not] using le_of_lt
  rw [← hat, ← habove, ← hrest]
  exact hbelow

/-- The elements of one key of a list that is sorted by key are one of its runs. -/
theorem filter_mem_splitBy (hr : ∀ a b, r a b = true ↔ f a = f b) (hl : l.Pairwise fun a b => f a ≤ f b)
    (hne : l.filter (f · = k) ≠ []) : l.filter (f · = k) ∈ l.splitBy r := by
  have hchain : (l.filter (f · = k)).IsChain fun a b => r a b = true := by
    refine (List.pairwise_of_forall_mem_list fun a ha b hb => (hr a b).2 ?_).isChain
    exact (of_decide_eq_true (List.mem_filter.1 ha).2).trans (of_decide_eq_true (List.mem_filter.1 hb).2).symm
  have hsplit : l.splitBy r = (l.filter (f · < k)).splitBy r ++
      ([l.filter (f · = k)] ++ (l.filter (k < f ·)).splitBy r) := by
    rw [← List.splitBy_of_isChain hne hchain, ← splitBy_append_of_lt hr, ← splitBy_append_of_lt hr,
      ← eq_below_append_above hl]
    · intro a ha b hb
      have ha : f a < k := of_decide_eq_true (List.mem_filter.1 ha).2
      rcases List.mem_append.1 hb with hb | hb
      · exact ha.trans_eq (of_decide_eq_true (List.mem_filter.1 hb).2).symm
      · exact ha.trans (of_decide_eq_true (List.mem_filter.1 hb).2)
    · intro a ha b hb
      exact (of_decide_eq_true (List.mem_filter.1 ha).2 : f a = k).trans_lt (of_decide_eq_true (List.mem_filter.1 hb).2)
  rw [hsplit]
  simp

end Runs

end JoinPlanner
