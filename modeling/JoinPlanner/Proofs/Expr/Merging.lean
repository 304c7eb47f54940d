import JoinPlanner.Proofs.Expr.Visited

/-!
# Merging the terms of a junction

One step of the merging puts a term last, or combines it with the first term that it may be merged with
(`Expr.mergeTerm_cases`). What a junction is made of has thus what its terms and all combinations have
(`Expr.forall_foldl_mergeTerm`), and a list of terms becomes smaller unless no two of them may be merged, when it
stays as it is (`Expr.foldl_mergeTerm_cases`).
-/

namespace JoinPlanner.Expr

variable {j : Junction} {e term : Expr} {merged terms : List Expr} {p : Expr → Prop} {c : ColumnRef} {r s : KeyRange}

/-- The later of two terms may be merged into the earlier: both say of one column that it is in a range, and the
values of both ranges are of one class. -/
def Mergeable (e term : Expr) : Prop := ∃ c r s, e.rangeTerm? = some (c, r) ∧ term.rangeTerm? = some (c, s) ∧
  r.width = s.width ∧ r.sameClass s = true

theorem mergeable_iff (hterm : term.rangeTerm? = some (c, s)) : e.Mergeable term ↔
    ∃ r, e.rangeTerm? = some (c, r) ∧ r.width = s.width ∧ r.sameClass s = true := by
  constructor
  · rintro ⟨c', r, s', he, hterm', h⟩
    obtain ⟨rfl, rfl⟩ := Prod.mk.inj (Option.some.inj (hterm.symm.trans hterm'))
    exact ⟨r, he, h⟩
  · rintro ⟨r, he, h⟩
    exact ⟨c, r, s, he, hterm, h⟩

theorem not_mergeable (h : term.rangeTerm? = none) : ¬e.Mergeable term := by
  rintro ⟨c, r, s, -, hterm, -⟩
  rw [h] at hterm
  cases hterm

/-- What is made of the terms `merged` and one more. -/
inductive MergeStep (j : Junction) (merged : List Expr) (term : Expr) : List Expr → Prop
  | last (h : ∀ e ∈ merged, ¬e.Mergeable term) : MergeStep j merged term (merged ++ [term])
  | into (before after : List Expr) {e : Expr} {c : ColumnRef} {r s : KeyRange}
      (hmerged : merged = before ++ e :: after) (hbefore : ∀ e ∈ before, ¬e.Mergeable term)
      (he : e.rangeTerm? = some (c, r)) (hterm : term.rangeTerm? = some (c, s)) (hwidth : r.width = s.width)
      (hclass : r.sameClass s = true) :
      MergeStep j merged term (before ++ rangeOrTruth c (j.combine r s) :: after)

theorem MergeStep.cons {result : List Expr} (h : MergeStep j merged term result) (he : ¬e.Mergeable term) :
    MergeStep j (e :: merged) term (e :: result) := by
  cases h with
  | last h => exact .last (List.forall_mem_cons.2 ⟨he, h⟩)
  | into before after hmerged hbefore he' hterm hwidth hclass =>
    exact .into (e :: before) after (congrArg _ hmerged) (List.forall_mem_cons.2 ⟨he, hbefore⟩) he' hterm hwidth hclass

theorem mergeStep_mergeRange (j : Junction) (hterm : term.rangeTerm? = some (c, s)) (merged : List Expr) :
    MergeStep j merged term (mergeRange j c s term merged) := by
  induction merged with
  | nil => exact .last nofun
  | cons e rest ih =>
    rw [mergeRange]
    split
    · next c' r he =>
      split
      · next hmerge =>
        simp only [Bool.and_eq_true, beq_iff_eq] at hmerge
        obtain ⟨⟨rfl, hwidth⟩, hclass⟩ := hmerge
        exact .into [] rest rfl nofun he hterm hwidth hclass
      · next hmerge =>
        refine ih.cons fun h => hmerge ?_
        obtain ⟨r', he', hwidth, hclass⟩ := (mergeable_iff hterm).1 h
        obtain ⟨rfl, rfl⟩ := Prod.mk.inj (Option.some.inj (he.symm.trans he'))
        simp [hwidth, hclass]
    · next he =>
      refine ih.cons fun h => ?_
      obtain ⟨r', he', -⟩ := (mergeable_iff hterm).1 h
      rw [he] at he'
      cases he'

theorem mergeTerm_cases (j : Junction) (merged : List Expr) (term : Expr) :
    MergeStep j merged term (mergeTerm j merged term) := by
  unfold mergeTerm
  split
  · next hterm => exact mergeStep_mergeRange j hterm merged
  · next hterm => exact .last fun e _ => not_mergeable hterm

/-- Combining two terms that satisfy `p` makes one that does. -/
def KeptByMerging (j : Junction) (p : Expr → Prop) : Prop :=
  ∀ ⦃e term c r s⦄, p e → p term → e.rangeTerm? = some (c, r) → term.rangeTerm? = some (c, s) →
    r.width = s.width → p (rangeOrTruth c (j.combine r s))

theorem MergeStep.forall {result : List Expr} (h : MergeStep j merged term result) (hp : KeptByMerging j p)
    (hmerged : ∀ e ∈ merged, p e) (hterm : p term) : ∀ e ∈ result, p e := by
  cases h with
  | last _ => exact List.forall_mem_append.2 ⟨hmerged, List.forall_mem_singleton.2 hterm⟩
  | into before after hsplit hbefore he hterm' hwidth hclass =>
    subst hsplit
    obtain ⟨hpbefore, hpe, hpafter⟩ := by simpa only [List.forall_mem_append, List.forall_mem_cons] using hmerged
    exact List.forall_mem_append.2 ⟨hpbefore, List.forall_mem_cons.2 ⟨hp hpe hterm he hterm' hwidth, hpafter⟩⟩

theorem forall_foldl_mergeTerm (hp : KeptByMerging j p) (hmerged : ∀ e ∈ merged, p e) (hterms : ∀ e ∈ terms, p e) :
    ∀ e ∈ terms.foldl (mergeTerm j) merged, p e := by
  induction terms generalizing merged with
  | nil => exact hmerged
  | cons term rest ih =>
    obtain ⟨hterm, hrest⟩ := List.forall_mem_cons.1 hterms
    exact ih ((mergeTerm_cases j merged term).forall hp hmerged hterm) hrest

theorem two_le_size_of_rangeTerm? (h : e.rangeTerm? = some (c, r)) : 2 ≤ e.size := by
  unfold rangeTerm? at h
  split at h
  · simp [size, sizeOfList]
  · cases h

theorem size_rangeOrTruth_le (c : ColumnRef) (r : KeyRange) : (rangeOrTruth c r).size ≤ 2 := by
  unfold rangeOrTruth
  split
  · simp [bool, size]
  · split
    · simp [bool, size]
    · simp [inRange, size, sizeOfList]

theorem MergeStep.size {result : List Expr} (h : MergeStep j merged term result) :
    (result = merged ++ [term] ∧ ∀ e ∈ merged, ¬e.Mergeable term) ∨
      sizeOfList result < sizeOfList (merged ++ [term]) := by
  cases h with
  | last h => exact .inl ⟨rfl, h⟩
  | @into before after e c r s hsplit hbefore he hterm hwidth hclass =>
    refine .inr ?_
    have hsize := two_le_size_of_rangeTerm? he
    have hsize' := two_le_size_of_rangeTerm? hterm
    have hmerged := size_rangeOrTruth_le c (j.combine r s)
    simp [hsplit, sizeOfList_eq]
    omega

theorem sizeOfList_append (es fs : List Expr) : sizeOfList (es ++ fs) = sizeOfList es + sizeOfList fs := by
  rw [sizeOfList_eq, sizeOfList_eq, sizeOfList_eq, List.map_append, List.sum_append]

theorem size_foldl_mergeTerm_le (j : Junction) (terms merged : List Expr) :
    sizeOfList (terms.foldl (mergeTerm j) merged) ≤ sizeOfList (merged ++ terms) := by
  induction terms generalizing merged with
  | nil => rw [List.append_nil]; exact le_rfl
  | cons term rest ih =>
    refine (ih _).trans ?_
    rw [List.append_cons, sizeOfList_append, sizeOfList_append (merged ++ [term])]
    refine Nat.add_le_add_right ?_ _
    rcases (mergeTerm_cases j merged term).size with ⟨heq, -⟩ | hlt
    · rw [heq]
    · exact hlt.le

/-- The terms stay as they are, no two of them to be merged, or there is less of them. -/
theorem foldl_mergeTerm_cases (j : Junction) (terms : List Expr)
    (hmerged : merged.Pairwise fun e term => ¬e.Mergeable term) :
    (terms.foldl (mergeTerm j) merged = merged ++ terms ∧
        (merged ++ terms).Pairwise fun e term => ¬e.Mergeable term) ∨
      sizeOfList (terms.foldl (mergeTerm j) merged) < sizeOfList (merged ++ terms) := by
  induction terms generalizing merged with
  | nil => exact .inl ⟨(List.append_nil _).symm, by rwa [List.append_nil]⟩
  | cons term rest ih =>
    rw [List.append_cons]
    rcases (mergeTerm_cases j merged term).size with ⟨heq, hnone⟩ | hlt
    · rw [List.foldl_cons, heq]
      refine ih (List.pairwise_append.2 ⟨hmerged, List.pairwise_singleton _ _, fun e he t ht => ?_⟩)
      exact List.mem_singleton.1 ht ▸ hnone e he
    · refine .inr ((size_foldl_mergeTerm_le j rest _).trans_lt ?_)
      rw [sizeOfList_append, sizeOfList_append (merged ++ [term])]
      exact Nat.add_lt_add_right hlt _

theorem foldl_mergeTerm_of_pairwise (h : (merged ++ terms).Pairwise fun e term => ¬e.Mergeable term) :
    terms.foldl (mergeTerm j) merged = merged ++ terms := by
  induction terms generalizing merged with
  | nil => exact (List.append_nil _).symm
  | cons term rest ih =>
    have hnone : ∀ e ∈ merged, ¬e.Mergeable term := fun e he =>
      (List.pairwise_append.1 h).2.2 e he term List.mem_cons_self
    rw [List.append_cons] at h ⊢
    have hstep := mergeTerm_cases j merged term
    rw [List.foldl_cons]
    generalize mergeTerm j merged term = result at hstep
    cases hstep with
    | last _ => exact ih h
    | into before after hsplit hbefore he hterm hwidth hclass =>
      exact absurd ⟨_, _, _, he, hterm, hwidth, hclass⟩ (hnone _ (by simp [hsplit]))

end JoinPlanner.Expr
