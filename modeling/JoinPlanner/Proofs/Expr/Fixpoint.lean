import JoinPlanner.Proofs.Expr.NodeStep
import Mathlib.Logic.Function.Iterate

/-!
# Simplifying a simple form

Simplification goes over the terms of a junction once. Two terms that it has merged may lose the value that kept
them from merging with a third, and that is not looked for. This is all that a second round may find: a simple
form is flat (`Expr.Flat`), and is left as it is if no two terms of a junction in it may be merged
(`Expr.simplify_eq_self`). Otherwise it becomes smaller (`Expr.size_simplify_lt`), so that finitely many rounds
leave nothing to do (`Expr.exists_iterate_fixed`).
-/

namespace JoinPlanner.Expr

variable {j : Junction} {e f : Expr} {args rest terms es : List Expr} {p : Expr → Prop} {c : ColumnRef} {r : KeyRange}

/-- A conjunction has no conjunction, a disjunction no disjunction, and neither a literal truth value as a term. -/
def Flat (e : Expr) : Prop :=
  ∀ (j : Junction) args, e = apply j.op args → ∀ a ∈ args, (∀ es, a ≠ apply j.op es) ∧ ∀ b, a ≠ bool b

/-- No two terms of a junction may be merged. -/
def Unmerged (e : Expr) : Prop :=
  ∀ (j : Junction) args, e = apply j.op args → args.Pairwise fun a b => ¬a.Mergeable b

/-- The node is flat, and simple if no two terms of it may be merged. -/
structure Settled (e : Expr) : Prop where
  flat : e.Flat
  fixed : e.Unmerged → e.simplifyNode = e

theorem settled_of_ne (hother : ∀ (j : Junction) args, e ≠ apply j.op args) (h : e.simplifyNode = e) : e.Settled :=
  ⟨fun j args he => absurd he (hother j args), fun _ => h⟩

theorem throughout_literal (h : ∀ v, p (literal v)) (v : Value) : (literal v).Throughout p := .intro _ (h v) nofun

theorem throughout_inRange (h : p (inRange c r)) (hcolumn : p (column c)) : (inRange c r).Throughout p :=
  .intro _ h fun f hf => by
    obtain rfl := List.mem_singleton.1 hf
    exact .intro _ hcolumn nofun

theorem settled_literal (v : Value) : (literal v).Settled := settled_of_ne (fun j _ h => by cases h) rfl

theorem throughout_settled_inRange (c : ColumnRef) (r : KeyRange) : (inRange c r).Throughout Settled := by
  refine throughout_inRange (settled_of_ne (fun j _ h => ?_) ?_) (settled_of_ne (fun j _ h => by cases h) rfl)
  · cases j <;> cases h
  · show foldConstant (inRange c r) = _
    simp [foldConstant, constant?, inRange, isStatic, isStaticList]

theorem terms?_eq_none_iff : j.terms? e = none ↔ ∀ es, e ≠ apply j.op es := by
  refine ⟨fun h es he => ?_, fun h => ?_⟩
  · rw [he] at h
    cases j <;> cases h
  · cases hterms : j.terms? e with
    | none => rfl
    | some es => exact absurd (terms?_eq_some hterms) (h es)

theorem mergedTerms_of_flat (h : ∀ a ∈ args, j.terms? a = none) :
    mergedTerms j args = args.foldl (mergeTerm j) [] := by
  have hterms : (args.flatMap fun e => (j.terms? e).getD [e]) = args := by
    rw [List.flatMap_congr fun a ha => by rw [h a ha, Option.getD_none], List.flatMap_singleton']
  rw [mergedTerms, hterms]

/-- A junction of terms that are no truth values, and no two of which may be merged, is left as it is. -/
theorem closeJunction_eq_self (hterms : ∀ a ∈ rest, ∀ b, a ≠ bool b) (htwo : 2 ≤ rest.length)
    (hconstant : (apply j.op rest).constant? = none) : closeJunction j rest = apply j.op rest := by
  have htruth (b : Bool) : ∀ a ∈ rest, isTruth b a = false := fun a ha => by
    rw [← Bool.not_eq_true, isTruth_iff]
    exact hterms a ha b
  have hany : rest.any (isTruth !j.neutral) = false := by
    rw [List.any_eq_false]
    exact fun a ha => by rw [htruth _ a ha]; exact Bool.false_ne_true
  have hfilter : rest.filter (!isTruth j.neutral ·) = rest :=
    List.filter_eq_self.2 fun a ha => by rw [htruth _ a ha, Bool.not_false]
  rw [closeJunction, hany, if_neg Bool.false_ne_true, hfilter]
  match rest, htwo with
  | a :: b :: rest, _ =>
    show foldConstant _ = _
    rw [foldConstant, hconstant]

theorem settled_junction (hflat : ∀ a ∈ rest, j.terms? a = none) (hterms : ∀ a ∈ rest, ∀ b, a ≠ bool b)
    (htwo : 2 ≤ rest.length) (hconstant : (apply j.op rest).constant? = none) : (apply j.op rest).Settled where
  flat j' args h := by
    obtain ⟨rfl, rfl⟩ := junction_inj h
    exact fun a ha => ⟨terms?_eq_none_iff.1 (hflat a ha), hterms a ha⟩
  fixed h := by
    have hpairs : ([] ++ rest).Pairwise fun a b : Expr => ¬a.Mergeable b := h j rest rfl
    rw [simplifyNode_junction, mergedTerms_of_flat hflat, foldl_mergeTerm_of_pairwise hpairs]
    exact closeJunction_eq_self hterms htwo hconstant

/-- The merged terms are simple, and none is a junction of the same kind. -/
theorem settled_mergedTerms (h : ∀ a ∈ args, a.Throughout Settled) :
    ∀ a ∈ mergedTerms j args, a.Throughout Settled ∧ j.terms? a = none := by
  have hmade : KeptByMerging j fun a => a.Throughout Settled ∧ j.terms? a = none := by
    intro _ _ c r s _ _ _ _ _
    rcases rangeOrTruth_cases c (j.combine r s) with heq | ⟨b, heq⟩
    · rw [heq]
      exact ⟨throughout_settled_inRange c _, by cases j <;> rfl⟩
    · rw [heq]
      exact ⟨throughout_literal settled_literal _, by cases j <;> rfl⟩
  refine forall_foldl_mergeTerm hmade nofun fun t ht => ?_
  rcases mem_terms_cases ht with ⟨ht, hterms⟩ | ⟨es, hes, ht⟩
  · exact ⟨h t ht, hterms⟩
  · have hsettled := h _ hes
    exact ⟨hsettled.child ht, terms?_eq_none_iff.2 (hsettled.here.flat j es rfl t ht).1⟩

theorem throughout_settled_simplifyNode (h : ∀ f ∈ e.children, f.Throughout Settled) :
    e.simplifyNode.Throughout Settled := by
  generalize hresult : e.simplifyNode = result
  have hstep := nodeStep_simplifyNode e
  rw [hresult] at hstep
  cases hstep with
  | keep hother hkeep => exact .intro _ (settled_of_ne hother hkeep) h
  | literal _ v => exact throughout_literal settled_literal v
  | range _ => exact throughout_settled_inRange _ _
  | term hterm => exact (settled_mergedTerms h _ hterm).1
  | junction hterms htruth htwo hconstant =>
    have hrest := fun a ha => settled_mergedTerms h a (hterms.mem ha)
    exact .intro _ (settled_junction (fun a ha => (hrest a ha).2) htruth htwo hconstant) fun f hf => (hrest f hf).1

theorem throughout_settled_simplify (e : Expr) : e.simplify.Throughout Settled := by
  induction e using children_induction with
  | h e ih =>
    rw [simplify_eq]
    refine throughout_settled_simplifyNode fun f hf => ?_
    rw [children_mapChildren] at hf
    obtain ⟨f', hf', rfl⟩ := List.mem_map.1 hf
    exact ih f' hf'

theorem simplify_eq_self (h : e.Throughout Settled) (hunmerged : e.Throughout Unmerged) : e.simplify = e := by
  induction h with
  | intro e hsettled _ ih =>
    rw [simplify_eq, mapChildren_eq_self fun f hf => ih f hf (hunmerged.child hf)]
    exact hsettled.fixed hunmerged.here

theorem size_mapChildren (g : Expr → Expr) (e : Expr) :
    (e.mapChildren g).size = (e.children.map fun f => (g f).size).sum + 1 := by
  rw [size_eq, children_mapChildren, List.map_map]
  rfl

theorem size_simplify_le (e : Expr) : e.simplify.size ≤ e.size := by
  induction e using children_induction with
  | h e ih =>
    rw [simplify_eq]
    refine (size_simplifyNode_le _).trans ?_
    rw [size_mapChildren, size_eq e]
    exact Nat.succ_le_succ (List.sum_le_sum ih)

/-- If two terms of a flat junction may be merged then some two are, these or others. -/
theorem size_simplifyNode_lt (hflat : e.Flat) (h : ¬e.Unmerged) : e.simplifyNode.size < e.size := by
  unfold Unmerged at h
  push Not at h
  obtain ⟨j, args, rfl, hpairs⟩ := h
  have hmerged : sizeOfList (mergedTerms j args) < sizeOfList args := by
    rw [mergedTerms_of_flat fun a ha => terms?_eq_none_iff.2 (hflat j args rfl a ha).1]
    exact (foldl_mergeTerm_cases j args .nil).resolve_left fun h => hpairs h.2
  rw [simplifyNode_junction, size]
  exact (size_closeJunction_le j args).trans_lt (Nat.succ_lt_succ hmerged)

theorem size_simplify_lt (h : e.Throughout Settled) (hmerge : ¬e.Throughout Unmerged) : e.simplify.size < e.size := by
  induction h with
  | intro e hsettled hbelow ih =>
    rw [simplify_eq]
    by_cases hchildren : ∀ f ∈ e.children, f.Throughout Unmerged
    · have hnode : ¬e.Unmerged := fun hnode => hmerge (.intro e hnode hchildren)
      rw [mapChildren_eq_self fun f hf => simplify_eq_self (hbelow f hf) (hchildren f hf)]
      exact size_simplifyNode_lt hsettled.flat hnode
    · push Not at hchildren
      obtain ⟨f, hf, hmerge⟩ := hchildren
      refine (size_simplifyNode_le _).trans_lt ?_
      rw [size_mapChildren, size_eq e]
      exact Nat.succ_lt_succ (List.sum_lt_sum _ _ (fun f _ => size_simplify_le f) ⟨f, hf, ih f hf hmerge⟩)

theorem exists_iterate_fixed (h : e.Throughout Settled) : ∃ n ≤ e.size, simplify (simplify^[n] e) = simplify^[n] e := by
  induction hsize : e.size using Nat.strong_induction_on generalizing e with
  | h size ih =>
    by_cases hunmerged : e.Throughout Unmerged
    · exact ⟨0, Nat.zero_le _, simplify_eq_self h hunmerged⟩
    · have hlt := size_simplify_lt h hunmerged
      obtain ⟨n, hn, hfixed⟩ := ih _ (hsize ▸ hlt) (throughout_settled_simplify e) rfl
      exact ⟨n + 1, by omega, hfixed⟩

end JoinPlanner.Expr
