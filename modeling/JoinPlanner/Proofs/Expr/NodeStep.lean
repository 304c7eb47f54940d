import JoinPlanner.Proofs.Expr.Merging
import JoinPlanner.Proofs.Expr.Truth
import Mathlib.Algebra.Order.BigOperators.Group.List
import Mathlib.Algebra.Order.Ring.Nat

/-!
# What becomes of a node

Simplification makes one of five things of a node whose children are simple (`Expr.nodeStep_simplifyNode`): it
leaves it as it is, evaluates it, makes a range of a comparison, or merges the terms of a junction, of which one
remains, or a junction. No step makes a tree larger (`Expr.size_simplifyNode_le`).
-/

namespace JoinPlanner.Expr

variable {b : Bool} {j : Junction} {e f : Expr} {args rest es fs : List Expr} {p : Expr → Prop} {c : ColumnRef} {r : KeyRange}

/-- The merged terms of a junction. -/
def mergedTerms (j : Junction) (args : List Expr) : List Expr :=
  (args.flatMap fun e => (j.terms? e).getD [e]).foldl (mergeTerm j) []

/-- What is made of a node whose children are simple. -/
inductive NodeStep : Expr → Expr → Prop
  | keep {e : Expr} (hother : ∀ (j : Junction) args, e ≠ apply j.op args) (h : e.simplifyNode = e) : NodeStep e e
  | literal (e : Expr) (v : Value) : NodeStep e (literal v)
  | range {op op' : Comparison} {left right : Expr} {c : ColumnRef} {v : Value}
      (h : columnComparison? op left right = some (c, op', v)) :
      NodeStep (compare op left right) (inRange c (.comparing op' [v]))
  | term {j : Junction} {args : List Expr} {e : Expr} (h : e ∈ mergedTerms j args) : NodeStep (apply j.op args) e
  | junction {j : Junction} {args rest : List Expr} (hterms : rest.Sublist (mergedTerms j args))
      (htruth : ∀ e ∈ rest, ∀ b, e ≠ bool b) (htwo : 2 ≤ rest.length) (hconstant : (apply j.op rest).constant? = none) :
      NodeStep (apply j.op args) (apply j.op rest)

theorem terms?_eq_some {args : List Expr} (h : j.terms? e = some args) : e = apply j.op args := by
  unfold Junction.terms? at h
  split at h <;> simp_all [Junction.op]

/-- The terms of a junction are its arguments, and the terms of those that are such junctions themselves. -/
theorem mem_terms_cases {term : Expr} (h : term ∈ args.flatMap fun e => (j.terms? e).getD [e]) :
    (term ∈ args ∧ j.terms? term = none) ∨ ∃ es, apply j.op es ∈ args ∧ term ∈ es := by
  obtain ⟨e, he, hterm⟩ := List.mem_flatMap.1 h
  cases hterms : j.terms? e with
  | none =>
    rw [hterms, Option.getD_none] at hterm
    obtain rfl := List.mem_singleton.1 hterm
    exact .inl ⟨he, hterms⟩
  | some es =>
    rw [hterms, Option.getD_some] at hterm
    exact .inr ⟨es, terms?_eq_some hterms ▸ he, hterm⟩

theorem isTruth_iff : isTruth b e = true ↔ e = bool b := by
  unfold isTruth bool
  split
  · simp
  · next h => exact ⟨fun hf => absurd hf (by simp), fun he => absurd he (h b)⟩

theorem foldConstant_cases (e : Expr) : (e.foldConstant = e ∧ e.constant? = none) ∨ ∃ v, e.foldConstant = literal v := by
  unfold foldConstant
  cases e.constant? with
  | none => exact .inl ⟨rfl, rfl⟩
  | some v => exact .inr ⟨v, rfl⟩

theorem rangeOrTruth_cases (c : ColumnRef) (r : KeyRange) :
    rangeOrTruth c r = inRange c r ∨ ∃ b, rangeOrTruth c r = bool b := by
  unfold rangeOrTruth
  split
  · exact .inr ⟨_, rfl⟩
  · split
    · exact .inr ⟨_, rfl⟩
    · exact .inl rfl

theorem simplifyNode_junction (j : Junction) (args : List Expr) :
    (apply j.op args).simplifyNode = closeJunction j (mergedTerms j args) := by
  cases j <;> rfl

theorem junction_inj {j j' : Junction} (h : apply j.op args = apply j'.op rest) : j = j' ∧ args = rest := by
  obtain ⟨hop, rfl⟩ := Expr.apply.inj h
  cases j <;> cases j' <;> cases hop <;> exact ⟨rfl, rfl⟩

theorem nodeStep_junction (j : Junction) (args : List Expr) :
    NodeStep (apply j.op args) (closeJunction j (mergedTerms j args)) := by
  unfold closeJunction
  split
  · exact .literal _ _
  · next habsorbing =>
    have htruth : ∀ e ∈ (mergedTerms j args).filter (!isTruth j.neutral ·), ∀ b, e ≠ bool b := by
      rintro e he b rfl
      obtain ⟨he, hneutral⟩ := List.mem_filter.1 he
      rcases j.eq_neutral_or b with rfl | rfl
      · rw [isTruth_iff.2 rfl] at hneutral
        cases hneutral
      · exact habsorbing (List.any_eq_true.2 ⟨_, he, isTruth_iff.2 rfl⟩)
    have hsub : ((mergedTerms j args).filter (!isTruth j.neutral ·)).Sublist (mergedTerms j args) := List.filter_sublist
    split
    · exact .literal _ _
    · next e hone => exact .term (hsub.mem (hone ▸ List.mem_singleton_self e))
    · next hnil hone =>
      rcases foldConstant_cases (apply j.op ((mergedTerms j args).filter (!isTruth j.neutral ·))) with
        ⟨heq, hconstant⟩ | ⟨v, heq⟩
      · rw [heq]
        refine .junction hsub htruth ?_ hconstant
        by_contra hlength
        match hrest : (mergedTerms j args).filter (!isTruth j.neutral ·) with
        | [] => exact hnil hrest
        | [e] => exact hone e hrest
        | _ :: _ :: _ => simp [hrest] at hlength
      · rw [heq]
        exact .literal _ _

theorem nodeStep_foldConstant (hother : ∀ (j : Junction) args, e ≠ apply j.op args)
    (h : e.simplifyNode = e.foldConstant) : NodeStep e e.foldConstant := by
  rcases foldConstant_cases e with ⟨heq, -⟩ | ⟨v, heq⟩
  · rw [heq]
    exact .keep hother (h.trans heq)
  · rw [heq]
    exact .literal _ _

theorem compare_ne_junction {op : Comparison} (j : Junction) (es : List Expr) :
    apply (.compare op) args ≠ apply j.op es := by
  intro h
  cases j <;> cases h

theorem nodeStep_simplifyComparison (op : Comparison) (left right : Expr) :
    NodeStep (compare op left right) (simplifyComparison op left right) := by
  have hnode : (compare op left right).simplifyNode = simplifyComparison op left right := rfl
  unfold simplifyComparison at hnode ⊢
  split at hnode
  · next c op' v hcolumn =>
    split
    · exact .literal _ _
    · rcases rangeOrTruth_cases c (.comparing op' [v]) with heq | ⟨b, heq⟩
      · rw [heq]
        exact .range hcolumn
      · rw [heq]
        exact .literal _ _
  · exact nodeStep_foldConstant compare_ne_junction hnode

theorem nodeStep_simplifyNode (e : Expr) : NodeStep e e.simplifyNode := by
  cases e with
  | apply op args =>
    cases op with
    | and => exact nodeStep_junction .all args
    | or => exact nodeStep_junction .any args
    | compare op =>
      match args with
      | [left, right] => exact nodeStep_simplifyComparison op left right
      | [] | [_] | _ :: _ :: _ :: _ => exact .keep compare_ne_junction rfl
    | not | arith | inRange | call =>
      refine nodeStep_foldConstant (fun j es h => ?_) rfl
      cases j <;> cases h
  | _ => exact .keep (fun j es h => by cases h) rfl

theorem size_pos (e : Expr) : 0 < e.size := by
  rw [size_eq]
  exact Nat.succ_pos _

theorem size_le_of_mem (h : e ∈ es) : e.size ≤ sizeOfList es := by
  rw [sizeOfList_eq]
  exact List.single_le_sum (fun _ _ => Nat.zero_le _) _ (List.mem_map_of_mem h)

theorem sizeOfList_le_of_sublist (h : es.Sublist fs) : sizeOfList es ≤ sizeOfList fs := by
  rw [sizeOfList_eq, sizeOfList_eq]
  exact (h.map size).sum_le_sum fun _ _ => Nat.zero_le _

theorem sizeOfList_mergedTerms_le (j : Junction) (args : List Expr) :
    sizeOfList (mergedTerms j args) ≤ sizeOfList args := by
  refine (size_foldl_mergeTerm_le j _ []).trans ?_
  rw [List.nil_append]
  induction args with
  | nil => exact le_rfl
  | cons e rest ih =>
    rw [List.flatMap_cons, sizeOfList_append, sizeOfList]
    refine Nat.add_le_add ?_ ih
    cases hterms : j.terms? e with
    | none => simp [sizeOfList]
    | some es =>
      rw [terms?_eq_some hterms, size, Option.getD_some]
      exact Nat.le_succ _

/-- What remains of a junction is no larger than its merged terms make it. -/
theorem size_closeJunction_le (j : Junction) (args : List Expr) :
    (closeJunction j (mergedTerms j args)).size ≤ sizeOfList (mergedTerms j args) + 1 := by
  generalize hnode : apply j.op args = node, hresult : closeJunction j (mergedTerms j args) = result
  have hstep := nodeStep_junction j args
  rw [hnode, hresult] at hstep
  cases hstep with
  | keep hother h => exact absurd hnode.symm (hother j args)
  | literal _ v => simp [size]
  | range h => exact absurd hnode.symm (compare_ne_junction j args)
  | term h =>
    obtain ⟨rfl, rfl⟩ := junction_inj hnode
    exact (size_le_of_mem h).trans (Nat.le_succ _)
  | junction hterms =>
    obtain ⟨rfl, rfl⟩ := junction_inj hnode
    rw [size]
    exact Nat.succ_le_succ (sizeOfList_le_of_sublist hterms)

theorem size_simplifyNode_le (e : Expr) : e.simplifyNode.size ≤ e.size := by
  have hjunction (j : Junction) (args : List Expr) :
      (apply j.op args).simplifyNode.size ≤ (apply j.op args).size := by
    rw [simplifyNode_junction, size]
    exact (size_closeJunction_le j args).trans (Nat.succ_le_succ (sizeOfList_mergedTerms_le j args))
  generalize hresult : e.simplifyNode = result
  have hstep := nodeStep_simplifyNode e
  rw [hresult] at hstep
  cases hstep with
  | keep => exact le_rfl
  | literal _ v => exact size_pos e
  | @range op op' left right c v h =>
    have hleft := left.size_pos
    simp only [compare, inRange, size, sizeOfList]
    omega
  | term h => exact hresult ▸ hjunction _ _
  | junction h => exact hresult ▸ hjunction _ _

end JoinPlanner.Expr
